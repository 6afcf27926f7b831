import Visibility.Proofs.Queue.Budget
import Visibility.Proofs.Service.Traffic

namespace Visibility

namespace Worker

/-- Whether a worker has taken a key and not settled it. -/
def worksOn (k : ChangeKey) (w : Worker) : Bool :=
  match w.phase with
  | .handle j _ | .settle j _ => j = k
  | _ => false

theorem key?_of_worksOn {k : ChangeKey} {w : Worker} (h : w.worksOn k = true) : w.key? = some k := by
  obtain ⟨ticket, phase⟩ := w
  cases phase with
  | handle j call => exact congrArg some (of_decide_eq_true h)
  | settle j succeeded => exact congrArg some (of_decide_eq_true h)
  | _ => cases h

theorem worksOn_again (k : ChangeKey) (w : Worker) : w.again.worksOn k = w.worksOn k := by
  obtain ⟨ticket, phase⟩ := w
  cases phase with
  | done more => cases more <;> rfl
  | _ => rfl

variable {q : Queue ChangeKey} {j k : ChangeKey} {busy arrived handed : Nat}

theorem budget_settle {config : Config}
    (h : q.Budget config.maxRetries k (busy + (decide (j = k)).toNat) arrived handed) (now : Nat)
    (succeeded : Bool) :
    (settle config now q j succeeded).Budget config.maxRetries k busy arrived handed := by
  by_cases hj : j = k
  · subst hj
    rw [decide_eq_true rfl] at h
    rw [settle]
    split
    · exact h.forget
    · split
      · rename_i hleft
        exact h.retry hleft now
      · obtain ⟨hwithin, hpaid, hbound, howed⟩ := h.forget
        exact ⟨hwithin, hpaid, hbound, howed⟩
  · rw [decide_eq_false hj] at h
    have hforget : (q.forget j).requeues k = q.requeues k :=
      (q.requeues_forget j k).trans (if_neg (Ne.symm hj))
    rw [settle]
    split
    · exact h.keep hforget (Nat.le_refl _) fun hopen => ⟨hopen, id⟩
    · split
      · obtain ⟨hle, hpos⟩ := q.owes_retry now j k
        rw [if_neg hj, Nat.add_zero] at hle
        refine h.keep ((q.requeues_retry now j k).trans (if_neg (Ne.symm hj))) hle fun hopen => ?_
        rw [(q.grows_retry now j).shuttingDown] at hopen
        exact ⟨hopen, fun hk => hpos hopen (.inr hk)⟩
      · exact h.keep hforget (Nat.le_refl _) fun hopen => ⟨hopen, id⟩

theorem get_cases {s : Service} {ticket : Nat} {g : Getter ChangeKey} (hproper : Proper ⟨ticket, .get g⟩)
    (config : Config) (now : Nat) (m : Moment) (k : ChangeKey) :
    let r := Worker.step config now m s ⟨ticket, .get g⟩
    (∃ j, s.queue.take? = some (j, r.1.queue) ∧ r.2.1.worksOn k = decide (j = k) ∧
        takes? s.queue ⟨ticket, .get g⟩ = some j) ∨
      ((∃ wake, r.1.queue = { s.queue with wake }) ∧ r.2.1.worksOn k = false ∧
        takes? s.queue ⟨ticket, .get g⟩ = none) := by
  intro r
  have hqueue : r.1.queue = (g.step ticket s.queue).1 := queue_step_get config now m s ticket g
  rw [hqueue]
  by_cases hgot : ∃ j, (g.step ticket s.queue).2 = .got j
  · obtain ⟨j, hj⟩ := hgot
    obtain ⟨⟨round, rfl⟩, htake⟩ := Getter.step_eq_got hproper hj
    refine .inl ⟨j, htake, ?_, by simp only [takes?, htake, Option.map_some]⟩
    simp only [r, step]
    cases hstep : (Getter.look round).step ticket s.queue with
    | mk q g' =>
        rw [hstep] at hj
        dsimp only at hj
        rw [hj]
        rfl
  · obtain ⟨hwake, hlook⟩ := Getter.step_waits fun j hj => hgot ⟨j, hj⟩
    refine .inr ⟨hwake, ?_, ?_⟩
    · simp only [r, step]
      cases hstep : g.step ticket s.queue with
      | mk q g' =>
          cases g' with
          | got j => exact absurd ⟨j, by rw [hstep]⟩ hgot
          | _ => rfl
    · cases g with
      | look round => simp only [takes?, hlook round rfl, Option.map_none]
      | _ => rfl

theorem count_singleton_eq (j k : ChangeKey) : [j].count k = (decide (j = k)).toNat := by
  by_cases hjk : j = k
  · simp [hjk]
  · simp [hjk]

theorem budget_step {config : Config} {s : Service} {w : Worker}
    (h : s.queue.Budget config.maxRetries k (busy + (w.worksOn k).toNat) arrived handed)
    (hcoherent : s.queue.Coherent) (hproper : w.Proper) (now : Nat) (m : Moment) :
    (w.step config now m s).1.queue.Budget config.maxRetries k
      (busy + ((w.step config now m s).2.1.worksOn k).toNat) arrived
      (handed + (w.takes? s.queue).toList.count k) := by
  obtain ⟨ticket, phase⟩ := w
  cases phase with
  | get g =>
      -- only a look that finds a key touches the budget
      rcases get_cases hproper config now m k with ⟨j, htake, hworks, htakes⟩ |
        ⟨⟨wake, hwake⟩, hworks, htakes⟩
      · rw [hworks, htakes, Option.toList_some, count_singleton_eq]
        exact h.take hcoherent htake
      · rw [hwake, hworks, htakes]
        exact h.keep rfl (Nat.le_refl _) fun hopen => ⟨hopen, id⟩
  | handle j call =>
      simp only [step]
      cases (call.step m s.cache).next.succeeded? with
      | none => exact h
      | some succeeded => exact h
  | settle j succeeded => exact budget_settle h now succeeded
  | release j =>
      refine h.keep (s.queue.requeues_release j k) (Nat.le_of_eq (s.queue.pending_release j k)) ?_
      intro hopen
      exact ⟨(s.queue.shuttingDown_release j).symm.trans hopen,
        fun hpos => (s.queue.pending_release j k).symm ▸ hpos⟩
  | done more => exact h

end Worker

theorem Loop.dealing?_eq (now : Nat) (stopping : Bool) (pick : Cue) (l : Loop) :
    l.dealing? now stopping pick = none ∨ l.dealing? now stopping pick = some .shutDown := by
  obtain ⟨ofService, ticker, phase⟩ := l
  cases phase with
  | wait =>
      simp only [dealing?]
      split
      · split
        · exact .inr rfl
        · exact .inl rfl
      · exact .inl rfl
  | _ => exact .inl rfl

namespace Deployment

variable {d d' : Deployment} {k : ChangeKey} {arrived handed : Nat}

/-- Only workers do more at the queue than to add a key, to let a delay or the time pass or to shut it down. -/
theorem dealing?_cases {e : Event} {deal : Traffic.Event ChangeKey} (h : d.dealing? e = some deal) :
    (∃ k, deal = .add k) ∨ deal = .shutDown ∨ (∃ time, deal = .elapse time) ∨
      (∃ x, deal = .expire x ∧ e = .expire x) ∨
      ∃ i m w, e = .work i m ∧ d.workers[i]? = some w ∧
        w.dealing? d.config d.service.queue = some deal := by
  cases e with
  | deliver i =>
      obtain ⟨p, -, hp⟩ := Option.bind_eq_some_iff.1 h
      cases p with
      | enqueue completion keys =>
          cases keys with
          | nil => cases hp
          | cons k keys => exact .inl ⟨k, (Option.some.inj hp).symm⟩
      | _ => cases hp
  | work i m =>
      obtain ⟨w, hi, hw⟩ := Option.bind_eq_some_iff.1 h
      exact .inr (.inr (.inr (.inr ⟨i, m, w, rfl, hi, hw⟩)))
  | loop pick m =>
      obtain ⟨l, -, hl⟩ := Option.bind_eq_some_iff.1 h
      rcases l.dealing?_eq d.clock d.stopping pick with hdeal | hdeal
      · cases hdeal.symm.trans hl
      · exact .inr (.inl (Option.some.inj (hl.symm.trans hdeal)))
  | expire x => exact .inr (.inr (.inr (.inl ⟨x, (Option.some.inj h).symm, rfl⟩)))
  | elapse time => exact .inr (.inr (.inl ⟨time, (Option.some.inj h).symm⟩))
  | _ => cases h

/-- How many workers work on a key. -/
def busy (d : Deployment) (k : ChangeKey) : Nat := d.workers.countP (Worker.worksOn k)

/-- The key that an event of the stores queues, if the queue accepts it. -/
def arrival? (d : Deployment) (e : Event) : Option ChangeKey :=
  match d.dealing? e with
  | some (.add k) => (some k).filter d.service.queue.accepts
  | _ => none

/-- The adds that the queue accepted and that were not retries, in order. -/
def arrivals (d : Deployment) (events : List Event) : List ChangeKey := shown next arrival? d events

/-- The budget of a key is kept, with those workers. -/
def Frugal (d : Deployment) (k : ChangeKey) (arrived handed : Nat) : Prop :=
  d.service.queue.Budget d.config.maxRetries k (d.busy k) arrived handed

theorem count_logs? (d : Deployment) (e : Event) (k : ChangeKey) :
    (d.logs? e).toList.count (.handed k) =
      ((d.dealing? e).bind d.traffic.handed?).toList.count k := by
  rw [logs?]
  cases d.dealing? e with
  | none => rfl
  | some deal => exact d.traffic.count_logs? deal k

theorem config_run (d : Deployment) (events : List Event) : (d.run events).config = d.config := by
  induction events generalizing d with
  | nil => rfl
  | cons e events ih => exact (ih (d.next e)).trans (d.continues_next e).config

theorem exists_busy_set {i : Nat} {w : Worker} (hi : d.workers[i]? = some w) (k : ChangeKey) :
    ∃ rest, d.busy k = rest + (w.worksOn k).toNat ∧
      ∀ w', (d.workers.set i w').countP (Worker.worksOn k) = rest + (w'.worksOn k).toNat := by
  obtain ⟨hlt, rfl⟩ := List.getElem?_eq_some_iff.1 hi
  have hset : ∀ w', (d.workers.set i w').countP (Worker.worksOn k) =
      d.workers.countP (Worker.worksOn k) - (if d.workers[i].worksOn k = true then 1 else 0) +
        (w'.worksOn k).toNat := by
    intro w'
    rw [List.countP_set hlt]
    cases w'.worksOn k <;> rfl
  refine ⟨_, ?_, hset⟩
  have hsame := hset d.workers[i]
  rw [List.set_getElem_self] at hsame
  exact hsame

theorem Frugal.work (h : d.Frugal k arrived handed) (hcoherent : d.service.queue.Coherent) {i : Nat}
    {w : Worker} (hi : d.workers[i]? = some w) (hproper : w.Proper) (m : Moment) :
    (d.work i w m).Frugal k arrived (handed + (w.takes? d.service.queue).toList.count k) := by
  obtain ⟨rest, hbefore, hafter⟩ := exists_busy_set hi k
  rw [Frugal, hbefore] at h
  have hstep := Worker.budget_step h hcoherent hproper d.clock m
  rw [← Worker.worksOn_again, ← hafter] at hstep
  rw [Frugal, (d.continues_work i w m).config]
  exact hstep

theorem Frugal.goOn (h : d.Frugal k arrived handed) (pick : Loop.Cue) (l : Loop) (m : Moment) :
    (d.goOn pick l m).Frugal k arrived handed := by
  have hbusy : (d.goOn pick l m).busy k = d.busy k :=
    congrArg (List.countP (Worker.worksOn k)) (d.workers_note .loop)
  rw [Frugal, (d.continues_goOn pick l m).config, hbusy]
  show (l.step d.clock d.stopping d.workersDone pick m d.service).1.queue.Budget _ _ _ _ _
  rcases l.queue_step d.clock d.stopping d.workersDone pick m d.service with hqueue | hqueue
  · rw [hqueue]
    exact h
  · rw [hqueue]
    exact Queue.Budget.keep h rfl (d.service.queue.pending_shutDown k) nofun

theorem Frugal.next (h : d.Frugal k arrived handed) (hcustody : d.Custody) (hseated : d.Seated) (e : Event) :
    (d.next e).Frugal k (arrived + (d.arrival? e).toList.count k)
      (handed + (d.logs? e).toList.count (.handed k)) := by
  rw [count_logs?]
  cases e with
  | deliver i =>
      simp only [Deployment.next, act, arrival?, dealing?]
      cases d.publications[i]? with
      | none => exact h
      | some p =>
          cases p with
          | event c =>
              have hqueue : (Publication.step d.stores d.service.queue (.event c)).2.1 = d.service.queue := by
                rw [Publication.step]
                split <;> rfl
              show (Publication.step d.stores d.service.queue (.event c)).2.1.Budget d.config.maxRetries k
                (d.busy k) arrived handed
              rw [hqueue]
              exact h
          | enqueue completion keys =>
              cases keys with
              | nil => exact h
              | cons j keys => exact Queue.Budget.add h j
          | _ => exact h
  | work i m =>
      simp only [Deployment.next, act, arrival?, dealing?]
      cases hi : d.workers[i]? with
      | none => exact h
      | some w =>
          obtain rfl := hseated i w hi
          have hwork := h.work hcustody.lent.coherent hi (hcustody.proper w (List.mem_of_getElem? hi))
            (d.moment m)
          have hhanded : (w.dealing? d.config d.service.queue).bind d.traffic.handed? =
              w.takes? d.service.queue := Worker.handed?_dealing? (getElem?_getters hi) d.config
          rw [Option.bind_some, hhanded]
          have harrival := w.dealing?_ne_add d.config d.service.queue
          split
          · rename_i j hj
            exact absurd hj (harrival j)
          · exact hwork
  | loop pick m =>
      simp only [Deployment.next, act, arrival?, dealing?]
      cases d.loop with
      | none => exact h
      | some l =>
          have hloop := h.goOn pick l (d.moment m)
          rcases l.dealing?_eq d.clock d.stopping pick with hdeal | hdeal
          · rw [Option.bind_some, hdeal]
            exact hloop
          · rw [Option.bind_some, hdeal]
            exact hloop
  | expire x =>
      simp only [Deployment.next, act, arrival?, dealing?]
      split
      · rename_i hx
        obtain ⟨hle, hpos⟩ := Queue.pending_expire hx.1 k
        have hrequeues : (d.service.queue.expire x).requeues k = d.service.queue.requeues k :=
          Queue.requeues_add _ x.key k
        refine Queue.Budget.keep h hrequeues hle fun hopen => ?_
        have hsame := (d.service.queue.grows_expire x).shuttingDown.symm.trans hopen
        exact ⟨hsame, hpos hsame⟩
      · exact h
  | _ => exact h

variable (config : Config) (workers : Nat) (period : Option Nat)

theorem frugal_boot (k : ChangeKey) : (boot config workers period).Frugal k 0 0 := by
  have hbusy : (boot config workers period).busy k = 0 := by
    rw [busy, List.countP_eq_zero]
    intro w hw
    obtain ⟨i, -, rfl⟩ := List.mem_map.1 hw
    exact nofun
  rw [Frugal, hbusy]
  exact Queue.budget_new config.limiter

theorem frugal_run (k : ChangeKey) (events : List Event) :
    ((boot config workers period).run events).Frugal k
      (((boot config workers period).arrivals events).count k)
      (((boot config workers period).log events).count (.handed k)) := by
  induction events using List.reverseRecOn with
  | nil => exact frugal_boot config workers period k
  | append_singleton events e ih =>
      have hnext := ih.next (custody_run config workers period events)
        (seated_run config workers period events) e
      rw [arrivals, log, shown_concat, shown_concat, List.count_append, List.count_append, run,
        List.foldl_concat]
      exact hnext

/-- However many workers there are, whatever the limiter and whichever calls fail: a key is handled at most
once, and tried again as often as it may be, for each add that the queue accepted and that was not a retry.
Its failures are never more than its retries, and before the service shuts down they are only counted while
the key waits, is dirty, is with a worker or is to be added later. -/
theorem handed_le_of_arrivals (events : List Event) (k : ChangeKey) :
    let start := boot config workers period
    let q := (start.run events).service.queue
    (start.log events).count (.handed k) ≤
        (config.maxRetries + 1) * (start.arrivals events).count k ∧
      q.requeues k ≤ config.maxRetries ∧
      (config.maxRetries < UInt32.size → q.requeues k < UInt32.size) ∧
      (q.shuttingDown = false → q.requeues k ≠ 0 →
        k ∈ q.waiting ∨ k ∈ q.dirty ∨ k ∈ q.processing ∨ ∃ d ∈ q.delayed, d.key = k) := by
  intro start q
  have hbudget := frugal_run config workers period k events
  have hconfig : (start.run events).config = config := start.config_run events
  rw [Frugal, hconfig] at hbudget
  refine ⟨hbudget.bound, hbudget.within, fun hsize => Nat.lt_of_le_of_lt hbudget.within hsize, ?_⟩
  intro hopen hfailed
  by_cases hpending : 0 < q.pending k
  · rcases Queue.pending_pos_iff.1 hpending with hdirty | hdelayed
    · exact .inr (.inl hdirty)
    · exact .inr (.inr (.inr hdelayed))
  · -- nothing is to come, so a worker has the key
    have howed : 0 < q.pending k + (start.run events).busy k := hbudget.owed hopen hfailed
    have hbusy : 0 < (start.run events).busy k := by omega
    obtain ⟨w, hw, hworks⟩ := List.countP_pos_iff.1 hbusy
    obtain ⟨i, hi⟩ := List.getElem?_of_mem hw
    have hcustody := custody_run config workers period events
    have hkey : (start.run events).key? i = some k := by
      rw [key?, hi]
      exact Worker.key?_of_worksOn hworks
    exact .inr (.inr (.inl (hcustody.lent.held i k hkey)))

-- the bound is reached: a namespace is queued once, and both of its looks at the store fail
example :
    let start := boot { maxRetries := 1, limiter := { fast := 0, slow := 0 } } 1 none
    let events : List Event :=
      .publish (.apply .namespaces { name := some "a" }) ::
        (List.replicate 3 (.deliver 0) ++
          List.replicate 12 (.work 0 { System.reviewing {} [] with fault := fun _ => some "down" }))
    (start.log events).count (.handed (.ns "a")) = 2 ∧ start.arrivals events = [.ns "a"] := by
  decide +kernel

end Deployment

end Visibility
