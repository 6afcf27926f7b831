import Visibility.Proofs.Queue.Attempts
import Visibility.Proofs.Service.Retries
import Visibility.Proofs.Service.Shutdown

namespace Visibility

namespace Worker

variable {k : ChangeKey}

/-- The key that a worker settles with its next step, and whether its try succeeded. -/
def outcome? (w : Worker) : Option (ChangeKey × Bool) :=
  match w.phase with
  | .settle k succeeded => some (k, succeeded)
  | _ => none

/-- What the next step of a worker is to a key. -/
def attempts (config : Config) (q : Queue ChangeKey) (w : Worker) (k : ChangeKey) : Attempts where
  handed := (w.takes? q).toList.count k
  outcomes := w.outcome?.toList.filterMap fun o => if o.1 = k then some o.2 else none
  retried := ((w.dealing? config q).toList.filterMap Traffic.Event.retried?).count k
  dropped := ((w.dealing? config q).toList.filterMap Traffic.Event.dropped?).count k

theorem attempts_settle_self (config : Config) (q : Queue ChangeKey) (ticket : Nat) (k : ChangeKey)
    (succeeded : Bool) :
    attempts config q ⟨ticket, .settle k succeeded⟩ k =
      if succeeded then { outcomes := [true] }
      else if q.requeues k < config.maxRetries then { outcomes := [false], retried := 1 }
      else { outcomes := [false], dropped := 1 } := by
  simp only [attempts, takes?, outcome?, dealing?, settling]
  cases succeeded with
  | true => simp [List.filterMap_cons, Traffic.Event.retried?, Traffic.Event.dropped?]
  | false =>
      by_cases hleft : q.requeues k < config.maxRetries
      · simp [hleft, List.filterMap_cons, Traffic.Event.retried?, Traffic.Event.dropped?]
      · simp [hleft, List.filterMap_cons, Traffic.Event.retried?, Traffic.Event.dropped?]

theorem attempts_settle_of_ne {j k : ChangeKey} (h : j ≠ k) (config : Config) (q : Queue ChangeKey)
    (ticket : Nat) (succeeded : Bool) :
    attempts config q ⟨ticket, .settle j succeeded⟩ k = {} := by
  simp only [attempts, takes?, outcome?, dealing?, settling]
  split
  · simp [h, List.filterMap_cons, Traffic.Event.retried?, Traffic.Event.dropped?]
  · split <;> simp [h, List.filterMap_cons, Traffic.Event.retried?, Traffic.Event.dropped?]

theorem course_settle (config : Config) (now : Nat) (q : Queue ChangeKey) (ticket : Nat) (j k : ChangeKey)
    (succeeded : Bool) (busy : Nat) :
    q.Course config.maxRetries now k (settle config now q j succeeded)
      (busy + (decide (j = k)).toNat) busy (attempts config q ⟨ticket, .settle j succeeded⟩ k) := by
  rw [settle]
  by_cases hj : j = k
  · subst hj
    rw [decide_eq_true rfl, Bool.toNat_true, attempts_settle_self]
    split
    · exact .succeeded rfl rfl rfl
    · split
      · rename_i hleft
        exact .retried rfl hleft rfl rfl
      · rename_i hleft
        exact .dropped rfl (Nat.le_of_not_lt hleft) rfl rfl
  · have hforget : (q.forget j).requeues k = q.requeues k :=
      (q.requeues_forget j k).trans (if_neg (Ne.symm hj))
    rw [decide_eq_false hj, attempts_settle_of_ne hj]
    split
    · exact .still (.inl rfl) hforget rfl rfl
    · split
      · exact .still (.inl (Queue.pending_retry_of_ne hj q now))
          ((q.requeues_retry now j k).trans (if_neg (Ne.symm hj))) rfl rfl
      · exact .still (.inl rfl) hforget rfl rfl

theorem course_step {s : Service} {w : Worker} (hcoherent : s.queue.Coherent) (hproper : w.Proper)
    (config : Config) (now : Nat) (m : Moment) (k : ChangeKey) (busy : Nat) :
    s.queue.Course config.maxRetries now k (w.step config now m s).1.queue
      (busy + (w.worksOn k).toNat) (busy + ((w.step config now m s).2.1.worksOn k).toNat)
      (w.attempts config s.queue k) := by
  obtain ⟨ticket, phase⟩ := w
  cases phase with
  | get g =>
      have hnothing : attempts config s.queue ⟨ticket, .get g⟩ k =
          { handed := (takes? s.queue ⟨ticket, .get g⟩).toList.count k } := by
        cases g <;> rfl
      rw [hnothing]
      rcases get_cases hproper config now m k with ⟨j, htake, hworks, htakes⟩ |
        ⟨⟨wake, hwake⟩, hworks, htakes⟩
      · have hpending := Queue.pending_take? hcoherent htake k
        have hfailures := Queue.requeues_take? htake k
        rw [hworks, htakes, Option.toList_some, count_singleton_eq]
        by_cases hj : j = k
        · rw [if_pos hj] at hpending
          rw [decide_eq_true hj]
          exact .taken hpending hfailures rfl rfl
        · rw [if_neg hj] at hpending
          rw [decide_eq_false hj]
          exact .still (.inl hpending.symm) hfailures rfl rfl
      · rw [hwake, hworks, htakes]
        exact .still (.inl rfl) rfl rfl rfl
  | handle j call =>
      have hworks : (Worker.step config now m s ⟨ticket, .handle j call⟩).2.1.worksOn k = decide (j = k) := by
        simp only [step]
        cases (call.step m s.cache).next.succeeded? <;> rfl
      rw [hworks]
      exact .still (.inl rfl) rfl rfl rfl
  | settle j succeeded => exact course_settle config now s.queue ticket j k succeeded busy
  | release j => exact .still (.inl (s.queue.pending_release j k)) (s.queue.requeues_release j k) rfl rfl
  | done more => exact .still (.inl rfl) rfl rfl rfl

end Worker

namespace Deployment

variable {d : Deployment} {k : ChangeKey}

/-- The key that an event settles, and whether its try succeeded. -/
def outcome? (d : Deployment) : Event → Option (ChangeKey × Bool)
  | .work i _ => d.workers[i]?.bind Worker.outcome?
  | _ => none

theorem exists_worker_of_outcome? {i : Nat} {m : Moment} {succeeded : Bool}
    (h : d.outcome? (.work i m) = some (k, succeeded)) :
    ∃ ticket, d.workers[i]? = some ⟨ticket, .settle k succeeded⟩ := by
  obtain ⟨⟨ticket, phase⟩, hi, hw⟩ := Option.bind_eq_some_iff.1 h
  cases phase with
  | settle j b =>
      cases hw
      exact ⟨ticket, hi⟩
  | _ => cases hw

/-- The keys that workers settled, and whether their tries succeeded, in order. -/
def outcomes (d : Deployment) (events : List Event) : List (ChangeKey × Bool) :=
  shown next outcome? d events

/-- What happened to a key in a run. -/
def attempts (d : Deployment) (events : List Event) (k : ChangeKey) : Attempts where
  arrived := (d.arrivals events).count k
  handed := (d.log events).count (.handed k)
  outcomes := (d.outcomes events).filterMap fun o => if o.1 = k then some o.2 else none
  retried := ((d.dealings events).filterMap Traffic.Event.retried?).count k
  dropped := ((d.dealings events).filterMap Traffic.Event.dropped?).count k

theorem Seated.tallies_run (h : d.Seated) (events : List Event) :
    d.service.queue.Tallies (d.run events).service.queue
      ((d.dealings events).filterMap Traffic.Event.retried?).length
      ((d.dealings events).filterMap Traffic.Event.dropped?).length := by
  obtain ⟨hrun, -⟩ := h.traffic_run events
  have htallies := d.traffic.tallies_run (d.dealings events)
  rw [← hrun] at htallies
  exact htallies

theorem attempts_append (d : Deployment) (a b : List Event) (k : ChangeKey) :
    d.attempts (a ++ b) k = d.attempts a k ++ (d.run a).attempts b k := by
  ext1 <;> simp [attempts, arrivals, log, outcomes, dealings, shown_append, run]

theorem attempts_cons (d : Deployment) (e : Event) (events : List Event) (k : ChangeKey) :
    d.attempts (e :: events) k = d.attempts [e] k ++ (d.next e).attempts events k :=
  d.attempts_append [e] events k

theorem attempts_singleton (d : Deployment) (e : Event) (k : ChangeKey) :
    d.attempts [e] k =
      { arrived := (d.arrival? e).toList.count k
        handed := ((d.dealing? e).bind d.traffic.handed?).toList.count k
        outcomes := (d.outcome? e).toList.filterMap fun o => if o.1 = k then some o.2 else none
        retried := ((d.dealing? e).toList.filterMap Traffic.Event.retried?).count k
        dropped := ((d.dealing? e).toList.filterMap Traffic.Event.dropped?).count k } := by
  ext1 <;> simp [attempts, arrivals, log, outcomes, dealings, shown, count_logs?]

theorem attempts_work (hseated : d.Seated) {i : Nat} {w : Worker} (hi : d.workers[i]? = some w) (m : Moment) :
    d.attempts [.work i m] k = w.attempts d.config d.service.queue k := by
  obtain rfl := hseated i w hi
  have hhanded : (w.dealing? d.config d.service.queue).bind d.traffic.handed? =
      w.takes? d.service.queue := Worker.handed?_dealing? (getElem?_getters hi) d.config
  have harrival : d.arrival? (.work w.ticket m) = none := by
    simp only [arrival?, dealing?, hi, Option.bind_some]
    split
    · rename_i j hj
      exact absurd hj (w.dealing?_ne_add d.config d.service.queue j)
    · rfl
  rw [attempts_singleton, harrival]
  simp only [dealing?, outcome?, hi, Option.bind_some, hhanded]
  rfl

theorem course_next (hcustody : d.Custody) (hseated : d.Seated) (e : Event)
    (hopen : (d.next e).service.queue.shuttingDown = false) (k : ChangeKey) :
    d.service.queue.Course d.config.maxRetries d.clock k (d.next e).service.queue (d.busy k)
      ((d.next e).busy k) (d.attempts [e] k) := by
  have hsame : d.service.queue.Course d.config.maxRetries d.clock k d.service.queue (d.busy k) (d.busy k) {} :=
    .still (.inl rfl) rfl rfl rfl
  cases e with
  | deliver i =>
      rw [attempts_singleton]
      simp only [Deployment.next, act, arrival?, outcome?, dealing?]
      cases d.publications[i]? with
      | none => exact hsame
      | some p =>
          cases p with
          | event c =>
              have hqueue : (Publication.step d.stores d.service.queue (.event c)).2.1 = d.service.queue := by
                rw [Publication.step]
                split <;> rfl
              show d.service.queue.Course d.config.maxRetries d.clock k
                (Publication.step d.stores d.service.queue (.event c)).2.1 (d.busy k) (d.busy k) {}
              rw [hqueue]
              exact hsame
          | enqueue completion keys =>
              cases keys with
              | nil => exact hsame
              | cons j keys => exact d.service.queue.course_add _ _ j k _
          | _ => exact hsame
  | work i m =>
      cases hi : d.workers[i]? with
      | none =>
          rw [attempts_singleton]
          simp only [Deployment.next, act, arrival?, outcome?, dealing?, hi]
          exact hsame
      | some w =>
          obtain ⟨rest, hbefore, hafter⟩ := exists_busy_set hi k
          have hstep := w.course_step hcustody.lent.coherent (hcustody.proper w (List.mem_of_getElem? hi))
            d.config d.clock (d.moment m) k rest
          rw [← hbefore, ← Worker.worksOn_again, ← hafter] at hstep
          rw [attempts_work hseated hi]
          simp only [Deployment.next, act, hi]
          exact hstep
  | loop pick m =>
      rw [attempts_singleton]
      simp only [Deployment.next, act, arrival?, outcome?, dealing?] at hopen ⊢
      cases hl : d.loop with
      | none => exact hsame
      | some l =>
          rw [hl] at hopen
          have hbusy : (d.goOn pick l (d.moment m)).busy k = d.busy k :=
            congrArg (List.countP (Worker.worksOn k)) (d.workers_note .loop)
          have hqueue : (d.goOn pick l (d.moment m)).service.queue = d.service.queue := by
            rcases l.queue_step d.clock d.stopping d.workersDone pick (d.moment m) d.service with hqueue | hqueue
            · exact hqueue
            · have hshut := congrArg Queue.shuttingDown hqueue
              cases hshut.symm.trans hopen
          show d.service.queue.Course d.config.maxRetries d.clock k (d.goOn pick l (d.moment m)).service.queue
            (d.busy k) ((d.goOn pick l (d.moment m)).busy k) _
          rw [hqueue, hbusy]
          rcases l.dealing?_eq d.clock d.stopping pick with hdeal | hdeal
          · rw [Option.bind_some, hdeal]
            exact hsame
          · rw [Option.bind_some, hdeal]
            exact hsame
  | expire x =>
      rw [attempts_singleton]
      simp only [Deployment.next, act, arrival?, outcome?, dealing?] at hopen ⊢
      split
      · rename_i hx
        rw [if_pos hx] at hopen
        have hopen' : d.service.queue.shuttingDown = false :=
          (d.service.queue.grows_expire x).shuttingDown.symm.trans hopen
        obtain ⟨hle, hpos⟩ := Queue.pending_expire hx.1 k
        replace hpos := hpos hopen'
        have hpending : (d.service.queue.expire x).pending k = d.service.queue.pending k ∨
            1 < d.service.queue.pending k := by omega
        exact .still hpending (Queue.requeues_add _ x.key k) rfl rfl
      · exact hsame
  | _ => exact hsame

/-- A key that is not to be handed out, and that no worker works on. -/
def Idle (d : Deployment) (k : ChangeKey) : Prop := d.service.queue.pending k = 0 ∧ d.busy k = 0

instance (d : Deployment) (k : ChangeKey) : Decidable (d.Idle k) :=
  inferInstanceAs (Decidable (_ ∧ _))

theorem Idle.requeues {config : Config} {workers : Nat} {period : Option Nat} {before : List Event}
    (hidle : ((boot config workers period).run before).Idle k)
    (hopen : ((boot config workers period).run before).service.queue.shuttingDown = false) :
    ((boot config workers period).run before).service.queue.requeues k = 0 := by
  obtain ⟨hpending, hbusy⟩ := hidle
  have hfrugal := frugal_run config workers period k before
  rw [Frugal, hbusy] at hfrugal
  by_contra hfailed
  have howed := hfrugal.owed hopen hfailed
  omega

/-- How a key stands after a run. -/
def Stands (d : Deployment) (events : List Event) (k : ChangeKey) : Prop :=
  (d.run events).service.queue.Standing d.config.maxRetries k ((d.run events).busy k) (d.attempts events k)

theorem Stands.next {events : List Event} {e : Event} (h : d.Stands events k) (hcustody : d.Custody)
    (hseated : d.Seated) (hopen : (d.run (events ++ [e])).service.queue.shuttingDown = false)
    (honce : (d.attempts (events ++ [e]) k).arrived ≤ 1) : d.Stands (events ++ [e]) k := by
  have hbefore := hseated.open_of_run hopen
  rw [attempts_append] at honce
  rw [run_append] at hopen
  have hcourse := course_next (hcustody.run events) (hseated.run events) e hopen k
  rw [config_run] at hcourse
  rw [Stands, attempts_append, run_append]
  exact Queue.Standing.next h hcourse hbefore honce

/-- A key that is added at most once after it was idle stands as its tries say. -/
theorem stands_run (hcustody : d.Custody) (hseated : d.Seated) (hidle : d.Idle k)
    (hfailures : d.service.queue.requeues k = 0) {later : List Event}
    (hopen : (d.run later).service.queue.shuttingDown = false)
    (honce : (d.attempts later k).arrived ≤ 1) : d.Stands later k := by
  induction later using List.reverseRecOn with
  | nil => exact .fresh hidle.1 hidle.2 hfailures rfl
  | append_singleton later e ih =>
      have honce' := honce
      rw [attempts_append, Attempts.arrived_append] at honce'
      have hbefore := ih (hseated.open_of_run hopen) (by omega)
      exact hbefore.next hcustody hseated hopen honce

end Deployment

end Visibility
