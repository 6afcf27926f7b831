import Visibility.Proofs.Service.Attempts
import Visibility.Proofs.Service.Progress

/-!
When a key that failed comes back.

A key that fails comes back after the delay of its count of failures, or, if there is no delay, when the worker
that has it releases it. When a worker settles a key that was added once, nobody else has to do with the key, so it
comes back in one way or not at all. On a schedule where everybody gets its turn and the timers go off, a key that
always fails is tried once more than it may be tried again, and then given up.
-/

namespace Visibility

theorem Worker.phase_of_getter {w : Worker} (h : w.getter = .parked) : w.phase = .get .parked := by
  obtain ⟨ticket, phase⟩ := w
  cases phase with
  | get g => exact congrArg _ h
  | done more => cases more <;> cases h
  | _ => cases h

namespace Deployment

variable {d : Deployment} {k : ChangeKey} {x : Delayed ChangeKey} {i : Nat} {w : Worker}

/-- The key that a worker has waits again when the worker releases it, and not before. -/
def BackAtRelease (d : Deployment) (i : Nat) (k : ChangeKey) : Prop :=
  ∀ rest, (∀ m, .work i m ∉ rest) →
    let f := d.run rest
    k ∈ f.service.queue.dirty ∧ k ∉ f.service.queue.waiting ∧
      ∀ m, (f.next (.work i m)).service.queue.waiting = f.service.queue.waiting ++ [k]

/-- A key is added when its delay is over, and not before, if it is not added otherwise and the queue does not
shut down. -/
def BackAfter (d : Deployment) (x : Delayed ChangeKey) : Prop :=
  ∀ rest, (d.run rest).service.queue.shuttingDown = false → (d.attempts rest x.key).arrived = 0 →
    (x ∈ (d.run rest).service.queue.delayed ∧ x.key ∉ (d.run rest).service.queue.dirty ∧
        (d.attempts rest x.key).handed = 0) ∨
      ∃ a b, rest = a ++ .expire x :: b ∧ x.due ≤ (d.run a).clock ∧ (d.attempts a x.key).handed = 0 ∧
        x.key ∉ (d.run a).service.queue.dirty ∧
        x.key ∈ ((d.run a).next (.expire x)).service.queue.dirty

theorem not_mem_waiting_of_key? (hcustody : d.Custody) (hkey : d.key? i = some k) :
    k ∉ d.service.queue.waiting :=
  fun hwaiting => hcustody.lent.coherent.apart k hwaiting (hcustody.lent.held i k hkey)

theorem Seated.mem_dirty_next (h : d.Seated) (hwaiting : k ∉ d.service.queue.waiting)
    (hk : k ∈ d.service.queue.dirty) (e : Event) : k ∈ (d.next e).service.queue.dirty := by
  refine (h.dirty_next hk e).resolve_right fun hlogs => hwaiting ?_
  obtain ⟨deal, -, hdeal⟩ := Option.bind_eq_some_iff.1 hlogs
  exact Traffic.mem_waiting_of_handed? (Traffic.handed?_of_logs? hdeal)

theorem queue_next_settle {ticket : Nat} {succeeded : Bool}
    (hi : d.workers[i]? = some ⟨ticket, .settle k succeeded⟩) (m : Moment) :
    (d.next (.work i m)).service.queue =
      Worker.settle d.config d.clock d.service.queue k succeeded := by
  simp only [Deployment.next, act, hi]
  rfl

theorem backAtRelease (hcustody : d.Custody) (hseated : d.Seated) {ticket : Nat}
    (hi : d.workers[i]? = some ⟨ticket, .release k⟩) (hk : k ∈ d.service.queue.dirty) :
    d.BackAtRelease i k := by
  intro rest hrest
  -- the worker keeps the key, and nobody else takes it
  induction rest generalizing d with
  | nil =>
      have hkey : d.key? i = some k := by rw [key?, hi]; rfl
      refine ⟨hk, not_mem_waiting_of_key? hcustody hkey, fun m => ?_⟩
      show (d.next (.work i m)).service.queue.waiting = d.service.queue.waiting ++ [k]
      rw [queue_next_release hi, Queue.release]
      exact congrArg Queue.waiting (if_pos hk)
  | cons e rest ih =>
      have hkey : d.key? i = some k := by rw [key?, hi]; rfl
      have hdirty := hseated.mem_dirty_next (not_mem_waiting_of_key? hcustody hkey) hk e
      rcases d.getElem?_workers_next e i with hsame | ⟨m, w, rfl, -, -⟩
      · exact ih (hcustody.next e) (hseated.next e) (hsame.trans hi) hdirty
          fun m hm => hrest m (List.mem_cons_of_mem e hm)
      · exact absurd List.mem_cons_self (hrest m)

theorem Seated.delayed_next (hseated : d.Seated) (hcustody : d.Custody)
    (hone : d.service.queue.pending x.key = 1) (hidle : d.busy x.key = 0) {e : Event}
    (hopen : (d.next e).service.queue.shuttingDown = false) (hnew : (d.attempts [e] x.key).arrived = 0)
    (hkept : x ∈ (d.next e).service.queue.delayed) :
    (d.next e).service.queue.pending x.key = 1 ∧ (d.next e).busy x.key = 0 ∧
      (d.attempts [e] x.key).handed = 0 := by
  have hpos : 0 < (d.next e).service.queue.pending x.key := Queue.pending_pos_iff.2 (.inr ⟨x, hkept, rfl⟩)
  cases course_next hcustody hseated e hopen x.key with
  | still hpending hfailures hbusy ha => exact ⟨by omega, by omega, by rw [ha]⟩
  | added hpending hfailures hbusy ha =>
      rw [ha] at hnew
      cases hnew
  | _ => omega

theorem backAfter (hcustody : d.Custody) (hseated : d.Seated) (hx : x ∈ d.service.queue.delayed)
    (hone : d.service.queue.pending x.key = 1) (hidle : d.busy x.key = 0) : d.BackAfter x := by
  intro rest hopen hnew
  induction rest generalizing d with
  | nil => exact .inl ⟨hx, Queue.not_mem_dirty_of_delayed hx hone, rfl⟩
  | cons e rest ih =>
      rw [attempts_cons, Attempts.arrived_append] at hnew
      have hnext : (d.next e).service.queue.shuttingDown = false :=
        hseated.open_of_run (a := [e]) (b := rest) hopen
      by_cases hkept : x ∈ (d.next e).service.queue.delayed
      · obtain ⟨hone', hidle', hhanded⟩ :=
          hseated.delayed_next hcustody hone hidle hnext (by omega) hkept
        rcases ih (hcustody.next e) (hseated.next e) hkept hone' hidle' hopen (by omega) with
          ⟨hstill, hclean, hnone⟩ | ⟨a, b, rfl, hdue, hnone, hclean, hdirty⟩
        · refine .inl ⟨hstill, hclean, ?_⟩
          rw [attempts_cons, Attempts.handed_append, hhanded, hnone]
        · refine .inr ⟨e :: a, b, rfl, hdue, ?_, hclean, hdirty⟩
          rw [attempts_cons, Attempts.handed_append, hhanded, hnone]
      · obtain ⟨rfl, hdue⟩ := (hseated.mem_delayed_next hx hnext).resolve_left hkept
        refine .inr ⟨[], rest, rfl, hdue, rfl, Queue.not_mem_dirty_of_delayed hx hone,
          mem_dirty_expire hx hdue ?_⟩
        exact hseated.open_of_run (a := []) (b := .expire x :: rest) hopen

theorem Stands.settling {later : List Event} (h : d.Stands later k) {ticket : Nat} {succeeded : Bool}
    (hi : (d.run later).workers[i]? = some ⟨ticket, .settle k succeeded⟩) (m : Moment) :
    (d.run later).service.queue.pending k = 0 ∧ ((d.run later).next (.work i m)).busy k = 0 ∧
      (d.attempts later k).outcomes.length = (d.run later).service.queue.requeues k := by
  obtain ⟨rest, hbefore, hafter⟩ := exists_busy_set hi k
  have hworks : (Worker.worksOn k ⟨ticket, .settle k succeeded⟩).toNat = 1 := by simp [Worker.worksOn]
  obtain ⟨-, hplace, ha⟩ := Queue.Standing.underWay_of_pos h (by omega)
  refine ⟨by omega, ?_, by rw [ha, List.length_replicate]⟩
  have hworkers : ((d.run later).next (.work i m)).workers =
      (d.run later).workers.set i ⟨ticket, .release k⟩ := by
    simp only [Deployment.next, act, hi]
    rfl
  rw [busy, hworkers, hafter]
  show rest + 0 = 0
  omega

theorem Stands.succeeded {later : List Event} (h : d.Stands later k) {ticket : Nat}
    (hi : (d.run later).workers[i]? = some ⟨ticket, .settle k true⟩) (m : Moment) :
    ((d.run later).next (.work i m)).service.queue.requeues k = 0 ∧
      ((d.run later).next (.work i m)).Idle k := by
  obtain ⟨hpending, hbusy, -⟩ := h.settling hi m
  have hqueue : ((d.run later).next (.work i m)).service.queue = (d.run later).service.queue.forget k :=
    queue_next_settle hi m
  refine ⟨?_, ?_, hbusy⟩
  · rw [hqueue, Queue.requeues_forget, if_pos rfl]
  · rw [hqueue]
    exact hpending

theorem Stands.failed {later : List Event} (h : d.Stands later k) (hcustody : d.Custody) (hseated : d.Seated)
    (hopen : (d.run later).service.queue.shuttingDown = false) {ticket : Nat}
    (hi : (d.run later).workers[i]? = some ⟨ticket, .settle k false⟩) (m : Moment) :
    let e := d.run later
    let e' := e.next (.work i m)
    let n := (d.attempts later k).outcomes.length + 1
    let wait := e.service.queue.limiter.delay n
    (n ≤ d.config.maxRetries → e'.service.queue.requeues k = n ∧ (wait = 0 → e'.BackAtRelease i k) ∧
        (wait ≠ 0 → e'.BackAfter ⟨Clock.after e.clock wait, k⟩)) ∧
      (d.config.maxRetries < n → e'.service.queue.requeues k = 0 ∧ e'.Idle k) := by
  intro e e' n wait
  have hqueue : e'.service.queue = Worker.settle e.config e.clock e.service.queue k false :=
    queue_next_settle hi m
  have hseated' : e'.Seated := (hseated.run later).next _
  have hcustody' : e'.Custody := (hcustody.run later).next _
  have hreleases : e'.workers[i]? = some ⟨ticket, .release k⟩ := getElem?_workers_work hi m
  have hconfig : e.config = d.config := d.config_run later
  obtain ⟨hpending, hbusy, hlength⟩ := h.settling hi m
  replace hpending : e.service.queue.pending k = 0 := hpending
  have hn : n = e.service.queue.requeues k + 1 := congrArg (· + 1) hlength
  constructor
  · intro hleft
    have hretry : e'.service.queue = e.service.queue.retry e.clock k := by
      rw [hqueue, Worker.settle, if_neg Bool.false_ne_true, if_pos (by rw [hconfig]; omega)]
    refine ⟨?_, fun hwait => ?_, fun hwait => ?_⟩
    · rw [hretry, Queue.requeues_retry, if_pos rfl, hn]
    · have hheld : k ∈ e.service.queue.processing := by
        refine (hcustody.run later).lent.held i k ?_
        rw [key?, hi]
        rfl
      have hclean : k ∉ e.service.queue.dirty := fun hdirty =>
        absurd (Queue.pending_pos_iff.2 (.inl hdirty)) (Nat.not_lt_of_le (Nat.le_of_eq hpending))
      refine backAtRelease hcustody' hseated' hreleases ?_
      rw [hretry]
      exact Queue.retry_at_once hopen hclean hheld (hn ▸ hwait) e.clock
    · have hlong : e.service.queue.limiter.delay (e.service.queue.requeues k + 1) ≠ 0 := by
        rw [← hn]
        exact hwait
      have hdelayed := Queue.retry_later hopen hlong e.clock
      rw [← hretry, ← hn] at hdelayed
      obtain ⟨hle, hsome⟩ := e.service.queue.owes_retry e.clock k k
      have hone : e'.service.queue.pending k = 1 := by
        have hsome := hsome hopen (.inl rfl)
        rw [if_pos rfl] at hle
        rw [hretry]
        omega
      refine backAfter hcustody' hseated' ?_ hone hbusy
      rw [hdelayed]
      exact List.mem_append_right _ (List.mem_singleton_self _)
  · intro hspent
    have hdrop : e'.service.queue = e.service.queue.drop k := by
      rw [hqueue, Worker.settle, if_neg Bool.false_ne_true, if_neg (by rw [hconfig]; omega)]
    refine ⟨?_, ?_, hbusy⟩
    · rw [hdrop]
      exact (e.service.queue.requeues_forget k k).trans (if_pos rfl)
    · rw [hdrop]
      exact hpending

/-- The first events of a schedule. -/
def firsts (schedule : Nat → Event) (n : Nat) : List Event := (List.range n).map schedule

variable {schedule : Nat → Event} {n n' : Nat}

theorem firsts_succ (schedule : Nat → Event) (n : Nat) :
    firsts schedule (n + 1) = firsts schedule n ++ [schedule n] := by
  rw [firsts, List.range_succ, List.map_append]
  rfl

theorem attempts_firsts_succ (d : Deployment) (schedule : Nat → Event) (n : Nat) (k : ChangeKey) :
    d.attempts (firsts schedule (n + 1)) k =
      d.attempts (firsts schedule n) k ++ (d.trace schedule n).attempts [schedule n] k := by
  rw [firsts_succ, attempts_append, trace_eq_run]
  rfl

theorem attempts_mono (d : Deployment) (schedule : Nat → Event) (k : ChangeKey) (hle : n ≤ n') :
    (d.attempts (firsts schedule n) k).arrived ≤ (d.attempts (firsts schedule n') k).arrived ∧
      (d.attempts (firsts schedule n) k).outcomes <+: (d.attempts (firsts schedule n') k).outcomes := by
  induction hle with
  | refl => exact ⟨Nat.le_refl _, List.prefix_refl _⟩
  | step hle ih =>
      rw [attempts_firsts_succ]
      exact ⟨Nat.le_trans ih.1 (Nat.le_add_right _ _), ih.2.trans (List.prefix_append _ _)⟩

theorem busy_next_of_handed (hcustody : d.Custody) (hseated : d.Seated) {e : Event}
    (hopen : (d.next e).service.queue.shuttingDown = false) (hhanded : d.logs? e = some (.handed k)) :
    0 < (d.next e).busy k := by
  have hone : (d.attempts [e] k).handed = 1 := by
    simp [attempts, log, shown, hhanded]
  cases course_next hcustody hseated e hopen k with
  | taken hpending hfailures hbusy ha => omega
  | still hpending hfailures hbusy ha | added hpending hfailures hbusy ha | succeeded hqueue hbusy ha
  | retried hqueue hleft hbusy ha | dropped hqueue hleft hbusy ha =>
      rw [ha] at hone
      cases hone

theorem Live.exists_try (h : d.Live schedule)
    (hplace : 0 < (d.trace schedule n).service.queue.pending k + (d.trace schedule n).busy k) :
    ∃ l ≥ n, (d.attempts (firsts schedule n) k).outcomes.length <
      (d.attempts (firsts schedule l) k).outcomes.length := by
  have hbusy : ∃ l ≥ n, 0 < (d.trace schedule l).busy k := by
    by_cases hbusy : 0 < (d.trace schedule n).busy k
    · exact ⟨n, Nat.le_refl n, hbusy⟩
    have hdirty : ∃ l ≥ n, k ∈ (d.trace schedule l).service.queue.dirty := by
      rcases Queue.pending_pos_iff.1 (show 0 < (d.trace schedule n).service.queue.pending k by omega) with
        hdirty | ⟨x, hx, rfl⟩
      · exact ⟨n, Nat.le_refl n, hdirty⟩
      · exact h.exists_dirty_of_delayed hx
    obtain ⟨l, hl, hdirty⟩ := hdirty
    obtain ⟨l', hl', hhanded⟩ := h.exists_handed_of_dirty hdirty
    exact ⟨l' + 1, by omega,
      busy_next_of_handed (h.alert l').custody (h.alert l').seated (h.opened (l' + 1)) hhanded⟩
  obtain ⟨l, hl, hbusy⟩ := hbusy
  obtain ⟨w, hw, hworks⟩ := List.countP_pos_iff.1 hbusy
  obtain ⟨i, hi⟩ := List.mem_iff_getElem?.1 hw
  obtain ⟨l', hl', m, ticket, succeeded, hm, hi⟩ := h.exists_settling hi hworks
  refine ⟨l' + 1, by omega, ?_⟩
  obtain ⟨-, hmono⟩ := d.attempts_mono schedule k (show n ≤ l' by omega)
  have hone : ((d.trace schedule l').attempts [schedule l'] k).outcomes = [succeeded] := by
    simp [attempts, outcomes, shown, outcome?, hm, hi, Worker.outcome?]
  rw [attempts_firsts_succ, Attempts.outcomes_append, hone, List.length_append]
  exact Nat.lt_succ_of_le hmono.length_le

/-- A key that was added and never succeeded comes back, or was given up after its retries. -/
theorem Stands.under_way_or_given_up {events : List Event} (h : d.Stands events k)
    (harrived : 1 ≤ (d.attempts events k).arrived) (hfails : true ∉ (d.attempts events k).outcomes) :
    ((d.attempts events k).outcomes.length ≤ d.config.maxRetries ∧
        0 < (d.run events).service.queue.pending k + (d.run events).busy k) ∨
      d.attempts events k = .givenUp d.config.maxRetries := by
  cases h with
  | fresh hpending hbusy hfailures ha =>
      rw [ha] at harrived
      cases harrived
  | underWay n hn hplace hfailures ha =>
      refine .inl ⟨?_, by omega⟩
      rw [ha, List.length_replicate]
      exact hn
  | succeeded n hn hpending hbusy hfailures ha =>
      refine absurd ?_ hfails
      rw [ha]
      exact List.mem_append_right _ (List.mem_singleton_self true)
  | dropped hpending hbusy hfailures ha => exact .inr ha

theorem Live.exists_given_up (h : d.Live schedule) (hstands : ∀ n, d.Stands (firsts schedule n) k)
    (harrives : ∃ n, 1 ≤ (d.attempts (firsts schedule n) k).arrived)
    (hfails : ∀ n, true ∉ (d.attempts (firsts schedule n) k).outcomes) :
    ∃ n, ∀ n' ≥ n, d.attempts (firsts schedule n') k = .givenUp d.config.maxRetries := by
  obtain ⟨n₀, harrived⟩ := harrives
  have hcases := fun n hn =>
    (hstands n).under_way_or_given_up (Nat.le_trans harrived (d.attempts_mono schedule k hn).1) (hfails n)
  -- as long as the key comes back there is one more try, and it does not come back forever
  have hmany : ∀ j ≤ d.config.maxRetries + 1,
      ∃ n ≥ n₀, j ≤ (d.attempts (firsts schedule n) k).outcomes.length := by
    intro j hj
    induction j with
    | zero => exact ⟨n₀, Nat.le_refl n₀, Nat.zero_le _⟩
    | succ j ih =>
        obtain ⟨n, hn, hlength⟩ := ih (Nat.le_of_succ_le hj)
        rcases hcases n hn with ⟨-, hplace⟩ | hspent
        · rw [firsts, ← trace_eq_run] at hplace
          obtain ⟨l, hl, hlt⟩ := h.exists_try hplace
          exact ⟨l, by omega, by omega⟩
        · refine ⟨n, hn, ?_⟩
          rw [hspent, Attempts.givenUp, List.length_replicate]
          exact hj
  obtain ⟨n, hn, hlength⟩ := hmany _ (Nat.le_refl _)
  refine ⟨n, fun n' hn' => (hcases n' (Nat.le_trans hn hn')).resolve_left ?_⟩
  have hmono := (d.attempts_mono schedule k hn').2.length_le
  omega

variable (config : Config) {workers : Nat} (period : Option Nat) (before : List Event)

/-- While a key is added only once, it stands as its tries say: each failure but the last counts one more, and the
key comes back when the delay of its count is over, or at once when it is released if there is no delay; a success
or the failure after the last retry resets the count, and nothing more comes of the key. No delay is longer than
thirty years. If every try fails, the key is tried once more than it may be tried again, and then given up. -/
theorem retry_schedule (hworkers : 0 < workers) {k : ChangeKey}
    (hidle : ((boot config workers period).run before).Idle k) :
    let d := (boot config workers period).run before
    (∀ later, (d.run later).service.queue.shuttingDown = false → (d.attempts later k).arrived ≤ 1 →
        let e := d.run later
        d.Stands later k ∧
          d.service.queue.Tallies e.service.queue
            ((d.dealings later).filterMap Traffic.Event.retried?).length
            ((d.dealings later).filterMap Traffic.Event.dropped?).length ∧
          (∀ i m, e.outcome? (.work i m) = some (k, true) →
            let e' := e.next (.work i m)
            e'.service.queue.requeues k = 0 ∧ e'.Idle k) ∧
          ∀ i m, e.outcome? (.work i m) = some (k, false) →
            let e' := e.next (.work i m)
            let n := (d.attempts later k).outcomes.length + 1
            let wait := if n ≤ config.limiter.maxFast then config.limiter.fast else config.limiter.slow
            (n ≤ config.maxRetries → e'.service.queue.requeues k = n ∧ (wait = 0 → e'.BackAtRelease i k) ∧
                (wait ≠ 0 → e'.BackAfter ⟨Clock.after e.clock wait, k⟩)) ∧
              (config.maxRetries < n → e'.service.queue.requeues k = 0 ∧ e'.Idle k)) ∧
      ∀ schedule, d.Prompt schedule →
        (∀ n, (d.trace schedule n).service.queue.shuttingDown = false) →
        (∀ n, (d.attempts (firsts schedule n) k).arrived ≤ 1) →
        (∃ n, 1 ≤ (d.attempts (firsts schedule n) k).arrived) →
        (∀ n, true ∉ (d.attempts (firsts schedule n) k).outcomes) →
          ∃ n, ∀ n' ≥ n, d.attempts (firsts schedule n') k = .givenUp config.maxRetries := by
  intro d
  have hcustody : d.Custody := custody_run config workers period before
  have hseated : d.Seated := seated_run config workers period before
  have hconfig : d.config = config := config_run _ before
  have hstands : ∀ later, (d.run later).service.queue.shuttingDown = false →
      (d.attempts later k).arrived ≤ 1 → d.Stands later k := by
    intro later hopen honce
    have hfailures := hidle.requeues (hseated.open_of_run (a := []) hopen)
    exact stands_run hcustody hseated hidle hfailures hopen honce
  constructor
  · intro later hopen honce e
    have hstanding := hstands later hopen honce
    have htallies := hseated.tallies_run later
    have hlimiter : e.service.queue.limiter = config.limiter :=
      htallies.limiter.trans ((seated_boot config workers period).tallies_run before).limiter
    refine ⟨hstanding, htallies, fun i m hsettled => ?_, fun i m hsettled => ?_⟩
    · obtain ⟨ticket, hi⟩ := exists_worker_of_outcome? hsettled
      exact hstanding.succeeded hi m
    obtain ⟨ticket, hi⟩ := exists_worker_of_outcome? hsettled
    have hfailed := hstanding.failed hcustody hseated hopen hi m
    rw [hconfig] at hfailed
    simp only [show (d.run later).service.queue.limiter = config.limiter from hlimiter] at hfailed
    exact hfailed
  · intro schedule hprompt hopened honce harrives hfails
    have halert : ∀ n, (d.trace schedule n).Alert := by
      intro n
      rw [trace_eq_run, ← run_append]
      exact alert_run config hworkers period _
    have hall : ∀ n, d.Stands (firsts schedule n) k := by
      intro n
      refine hstands _ ?_ (honce n)
      rw [firsts, ← trace_eq_run]
      exact hopened n
    rw [← hconfig]
    exact Live.exists_given_up ⟨hprompt, halert, hopened⟩ hall harrives hfails

/-- A service whose workers are all parked, and in which nothing is left to come. -/
structure Dormant (d : Deployment) : Prop where
  seated : d.Seated
  opened : d.service.queue.shuttingDown = false
  parked : ∀ w ∈ d.workers, w.phase = .get .parked
  woken : d.service.queue.wake.woken = []
  delayed : d.service.queue.delayed = []
  loop : d.loop = none

theorem Dormant.call?_eq_none (h : d.Dormant) (r : Runner) : d.call? r = none := by
  cases r with
  | worker i =>
      rw [call?, Option.bind_eq_none_iff]
      intro w hi
      rw [Worker.call?, h.parked w (List.mem_of_getElem? hi)]
  | loop => rw [call?, h.loop]; rfl

theorem Dormant.next_work (h : d.Dormant) {ticket : Nat} (hi : d.workers[i]? = some ⟨ticket, .get .parked⟩)
    (m : Moment) :
    (d.next (.work i m)).service = d.service ∧ (d.next (.work i m)).workers = d.workers ∧
      (d.next (.work i m)).loop = d.loop := by
  have hsleep : d.service.queue.wake.goOn? ticket = none := by
    rw [Wake.goOn?, h.woken, if_neg List.not_mem_nil]
  have hstep : Worker.step d.config d.clock (d.moment m) d.service ⟨ticket, .get .parked⟩ =
      (d.service, ⟨ticket, .get .parked⟩, none) := by
    simp only [Worker.step, Getter.step, hsleep]
  obtain ⟨hlt, hget⟩ := List.getElem?_eq_some_iff.1 hi
  have hset : d.workers.set i ⟨ticket, .get .parked⟩ = d.workers := by
    rw [← hget, List.set_getElem_self]
  simp only [Deployment.next, act, hi, Option.elim_some, work, hstep]
  exact ⟨trivial, hset, d.loop_note _⟩

/-- A service in which nothing is left to come stays as it is until an event is delivered. -/
theorem Dormant.next (h : d.Dormant) {e : Event} (he : ∀ i, e ≠ .deliver i) :
    (d.next e).Dormant ∧ ∀ k, d.attempts [e] k = {} := by
  have hseated := h.seated.next e
  cases e with
  | deliver i => exact absurd rfl (he i)
  | work i m =>
      cases hi : d.workers[i]? with
      | none =>
          simp only [Deployment.next, act, hi] at hseated ⊢
          refine ⟨⟨hseated, h.opened, h.parked, h.woken, h.delayed, h.loop⟩, fun k => ?_⟩
          rw [attempts_singleton]
          simp [arrival?, dealing?, outcome?, hi]
      | some w =>
          obtain ⟨ticket, phase⟩ := w
          obtain rfl : phase = .get .parked := h.parked _ (List.mem_of_getElem? hi)
          obtain ⟨hservice, hworkers, hloop⟩ := h.next_work hi m
          refine ⟨⟨hseated, ?_, hworkers ▸ h.parked, ?_, ?_, hloop.trans h.loop⟩, fun k => ?_⟩
          · rw [hservice]
            exact h.opened
          · rw [hservice]
            exact h.woken
          · rw [hservice]
            exact h.delayed
          · exact attempts_work h.seated hi m
  | loop pick m =>
      simp only [Deployment.next, act, h.loop] at hseated ⊢
      refine ⟨⟨hseated, h.opened, h.parked, h.woken, h.delayed, h.loop⟩, fun k => ?_⟩
      rw [attempts_singleton]
      simp [arrival?, dealing?, outcome?, h.loop]
  | expire x =>
      have hgone : x ∉ d.service.queue.delayed := h.delayed ▸ List.not_mem_nil
      simp only [Deployment.next, act, if_neg fun hx : _ ∧ _ => hgone hx.1] at hseated ⊢
      exact ⟨⟨hseated, h.opened, h.parked, h.woken, h.delayed, h.loop⟩, fun k => d.attempts_singleton _ k⟩
  | _ => exact ⟨⟨hseated, h.opened, h.parked, h.woken, h.delayed, h.loop⟩, fun k => rfl⟩

theorem Dormant.trace (h : (d.trace schedule n).Dormant) (hquiet : ∀ l ≥ n, ∀ i, schedule l ≠ .deliver i)
    (hle : n ≤ n') :
    (d.trace schedule n').Dormant ∧
      ∀ k, d.attempts (firsts schedule n') k = d.attempts (firsts schedule n) k := by
  induction hle with
  | refl => exact ⟨h, fun k => rfl⟩
  | @step l hl ih =>
      obtain ⟨hdormant, hnothing⟩ := ih.1.next (hquiet l hl)
      refine ⟨hdormant, fun k => ?_⟩
      rw [attempts_firsts_succ, hnothing, Attempts.append_nothing, ih.2]

/-- A namespace is created; its key is not queued yet. -/
def created : List Event := [.publish (.apply .namespaces { name := some "a" }), .deliver 0, .deliver 0]

/-- A service of one worker, just before the key of a namespace is queued. -/
def outage : Deployment := (boot { maxRetries := 1, limiter := { fast := 5 } } 1 none).run created

/-- Nothing can be looked up. -/
def down : Moment := { System.reviewing {} [] with fault := fun _ => some "down" }

/-- The key is queued; then the worker, the loop, the clock and the timer of the key take turns. -/
def rounds (n : Nat) : Event :=
  if n = 0 then .deliver 0
  else match n % 4 with
    | 1 => .work 0 down
    | 2 => .loop .signal down
    | 3 => .elapse 5
    | _ => .expire ⟨20, .ns "a"⟩

theorem rounds_expire (n : Nat) : rounds (4 * (n + 1)) = .expire ⟨20, .ns "a"⟩ := by
  have hmod : 4 * (n + 1) % 4 = 0 := by omega
  rw [rounds, if_neg (by omega), hmod]
  rfl

theorem rounds_elapse (n : Nat) : rounds (4 * n + 3) = .elapse 5 := by
  have hmod : (4 * n + 3) % 4 = 3 := by omega
  rw [rounds, if_neg (by omega), hmod]
  rfl

theorem exists_rounds_work (n : Nat) : ∃ m, rounds (4 * n + 1) = .work 0 m := by
  have hmod : (4 * n + 1) % 4 = 1 := by omega
  rw [rounds, if_neg (by omega), hmod]
  exact ⟨_, rfl⟩

theorem exists_rounds_loop (n : Nat) : ∃ m, rounds (4 * n + 2) = .loop .signal m := by
  have hmod : (4 * n + 2) % 4 = 2 := by omega
  rw [rounds, if_neg (by omega), hmod]
  exact ⟨_, rfl⟩

theorem rounds_ne_deliver (hn : 0 < n) (i : Nat) : rounds n ≠ .deliver i := by
  rw [rounds, if_neg (by omega)]
  split <;> exact nofun

theorem le_clock_rounds (d : Deployment) (n : Nat) : n ≤ (d.trace rounds (4 * n)).clock := by
  induction n with
  | zero => exact Nat.zero_le _
  | succ n ih =>
      have hbefore : (d.trace rounds (4 * n)).clock ≤ (d.trace rounds (4 * n + 3)).clock :=
        stays (P := fun d' => (d.trace rounds (4 * n)).clock ≤ d'.clock)
          (fun l hl => Nat.le_trans hl (le_clock_next _ (rounds l))) (Nat.le_add_right _ 3) (Nat.le_refl _)
      have hround : (d.trace rounds (4 * n + 3 + 1)).clock = (d.trace rounds (4 * n + 3)).clock + 5 := by
        rw [trace, rounds_elapse]
        rfl
      rw [show 4 * (n + 1) = 4 * n + 3 + 1 by omega, hround]
      omega

theorem dormant_outage (n : Nat) :
    (outage.trace rounds (max n 64)).Dormant ∧
      outage.attempts (firsts rounds (max n 64)) (.ns "a") = .givenUp 1 := by
  have hseated : outage.Seated := seated_run _ 1 none created
  have hdormant : (outage.trace rounds 64).Dormant := by
    refine ⟨?_, by decide +kernel, fun w hw => Worker.phase_of_getter ?_, by decide +kernel,
      by decide +kernel, ?_⟩
    · rw [trace_eq_run]
      exact hseated.run _
    · have hparked : ∀ w ∈ (outage.trace rounds 64).workers, w.getter = .parked := by decide +kernel
      exact hparked w hw
    · have hnone : (outage.trace rounds 64).loop.isNone = true := by decide +kernel
      exact Option.isNone_iff_eq_none.1 hnone
  have hend : outage.attempts (firsts rounds 64) (.ns "a") = .givenUp 1 := by decide +kernel
  obtain ⟨hlate, hnothing⟩ := hdormant.trace (fun l hl => rounds_ne_deliver (by omega)) (Nat.le_max_right n 64)
  exact ⟨hlate, (hnothing _).trans hend⟩

theorem open_outage (n : Nat) : (outage.trace rounds n).service.queue.shuttingDown = false := by
  by_contra hshut
  rw [Bool.not_eq_false] at hshut
  have hstays : ∀ l, (outage.trace rounds l).service.queue.shuttingDown = true →
      (outage.trace rounds (l + 1)).service.queue.shuttingDown = true := by
    intro l
    have hl : (outage.trace rounds l).Seated := by
      rw [trace_eq_run]
      exact (seated_run _ 1 none created).run _
    exact hl.shuttingDown_next (rounds l)
  have hdown := stays (P := fun d => d.service.queue.shuttingDown = true) hstays (Nat.le_max_left n 64) hshut
  cases hdown.symm.trans (dormant_outage n).1.opened

theorem prompt_outage : outage.Prompt rounds := by
  refine ⟨⟨?_, ?_, ?_⟩, fun time => ⟨4 * time, outage.le_clock_rounds time⟩, ?_⟩
  · intro i hi n
    have hone : outage.workers.length = 1 := by decide +kernel
    obtain rfl : i = 0 := by omega
    exact ⟨4 * n + 1, by omega, exists_rounds_work n⟩
  · exact fun n => ⟨4 * n + 2, by omega, .signal, exists_rounds_loop n⟩
  · exact fun r n _ => ⟨max n 64, Nat.le_max_left n 64, (dormant_outage n).1.call?_eq_none r⟩
  · intro n x hx _
    have honly : ∀ n < 64, ∀ x ∈ (outage.trace rounds n).service.queue.delayed, x = ⟨20, .ns "a"⟩ := by
      decide +kernel
    refine ⟨4 * (n + 1), by omega, ?_⟩
    by_cases hn : n < 64
    · rw [rounds_expire, honly n hn x hx]
    · have hnone := (dormant_outage n).1.delayed
      rw [Nat.max_eq_left (Nat.le_of_not_lt hn)] at hnone
      rw [hnone] at hx
      cases hx

theorem retry_schedule_outage :
    let a : ChangeKey := .ns "a"
    0 < 1 ∧ outage.Idle a ∧
      (outage.run (firsts rounds 13)).service.queue.shuttingDown = false ∧
      (outage.run (firsts rounds 13)).outcome? (rounds 13) = some (a, false) ∧
      (outage.run (firsts rounds 14)).service.queue.requeues a = 1 ∧
      (outage.run (firsts rounds 14)).BackAfter ⟨20, a⟩ ∧
      outage.Prompt rounds ∧
      (∀ n, (outage.trace rounds n).service.queue.shuttingDown = false) ∧
      (∀ n, (outage.attempts (firsts rounds n) a).arrived ≤ 1) ∧
      (∃ n, 1 ≤ (outage.attempts (firsts rounds n) a).arrived) ∧
      (∀ n, true ∉ (outage.attempts (firsts rounds n) a).outcomes) ∧
      ∃ n, ∀ n' ≥ n, outage.attempts (firsts rounds n') a = .givenUp 1 := by
  intro a
  have hidle : outage.Idle a := by decide +kernel
  have hopen : (outage.run (firsts rounds 13)).service.queue.shuttingDown = false := by decide +kernel
  have hsettled : (outage.run (firsts rounds 13)).outcome? (rounds 13) = some (a, false) := by decide +kernel
  have hone : (outage.attempts (firsts rounds 13) a).outcomes.length + 1 = 1 := by decide +kernel
  have hclock : (outage.run (firsts rounds 13)).clock = 15 := by decide +kernel
  have hmono := fun n => outage.attempts_mono rounds a (Nat.le_max_left n 64)
  simp only [fun n => (dormant_outage n).2, a] at hmono
  have honce : ∀ n, (outage.attempts (firsts rounds n) a).arrived ≤ 1 := fun n => (hmono n).1
  have harrives : ∃ n, 1 ≤ (outage.attempts (firsts rounds n) a).arrived :=
    ⟨64, Nat.le_of_eq (congrArg Attempts.arrived (dormant_outage 64).2).symm⟩
  have hfails : ∀ n, true ∉ (outage.attempts (firsts rounds n) a).outcomes := by
    intro n hmem
    cases List.eq_of_mem_replicate ((hmono n).2.subset hmem)
  have hmain := retry_schedule { maxRetries := 1, limiter := { fast := 5 } } none created (by decide) hidle
  rw [show (boot _ 1 none).run created = outage from rfl] at hmain
  obtain ⟨hschedule, hover⟩ := hmain
  obtain ⟨m, hm⟩ := exists_rounds_work 3
  replace hm : rounds 13 = .work 0 m := hm
  obtain ⟨-, -, -, hfailed⟩ := hschedule (firsts rounds 13) hopen (honce 13)
  obtain ⟨hleft, -⟩ := hfailed 0 m (hm ▸ hsettled)
  rw [hone, hclock, Clock.after_eq_add 15 (by decide)] at hleft
  obtain ⟨hrequeues, -, hback⟩ := hleft (Nat.le_refl 1)
  have hnext : outage.run (firsts rounds 14) = (outage.run (firsts rounds 13)).next (.work 0 m) := by
    rw [firsts_succ, run_append, hm]
    rfl
  rw [hnext]
  exact ⟨by decide, hidle, hopen, hsettled, hrequeues, hback (by decide), prompt_outage, open_outage, honce,
    harrives, hfails, hover rounds prompt_outage open_outage honce harrives hfails⟩

/-- A delay of more than thirty years is cut short. -/
theorem added_before_its_delay :
    let config : Config := { maxRetries := 1, limiter := { fast := Clock.longestWait + 5 } }
    let a : ChangeKey := .ns "a"
    let tries := .deliver 0 :: List.replicate 3 (.work 0 down)
    let rest := [.work 0 down, .work 0 down, .elapse Clock.longestWait, .expire ⟨Clock.longestWait, a⟩]
    let d := (boot config 1 none).run created
    let e := d.run tries
    let e' := e.run rest
    d.Idle a ∧ (d.attempts (tries ++ rest) a).arrived = 1 ∧ e'.service.queue.shuttingDown = false ∧
      e.outcome? (.work 0 down) = some (a, false) ∧ 1 ≤ config.maxRetries ∧ 1 ≤ config.limiter.maxFast ∧
      (e.next (.work 0 down)).service.queue.requeues a = 1 ∧
      (e.next (.work 0 down)).service.queue.waiting = [] ∧
      e'.service.queue.waiting = [a] ∧ e'.clock < e.clock + config.limiter.fast := by
  decide +kernel

end Deployment

end Visibility
