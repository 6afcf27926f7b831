import Visibility.Proofs.Queue.Traffic
import Visibility.Proofs.Service.Custody

/-!
A service as the traffic at its queue: its workers are getters that settle their keys, and its events, its
timers and its loop add keys or shut the queue down. What holds of all traffic at a queue holds of the
queue of a service.
-/

namespace Visibility

namespace Worker

/-- The worker as one who gets keys. -/
def getter (w : Worker) : Getter ChangeKey :=
  match w.phase with
  | .get g => g
  | .handle k _ | .settle k _ | .release k => .got k
  | .done true => .enter
  | .done false => .closed

/-- What a worker does about a key that it handled. -/
def settling (config : Config) (q : Queue ChangeKey) (k : ChangeKey) (succeeded : Bool) :
    Traffic.Event ChangeKey :=
  if succeeded then .forget k
  else if q.requeues k < config.maxRetries then .retry k
  else .drop k

/-- What the next step of a worker is at the queue. -/
def dealing? (config : Config) (q : Queue ChangeKey) (w : Worker) :
    Option (Traffic.Event ChangeKey) :=
  match w.phase with
  | .get .closed => none
  | .get _ => some (.get w.ticket)
  | .settle k succeeded => some (settling config q k succeeded)
  | .release _ => some (.done w.ticket)
  | .handle .. | .done _ => none

theorem next_settling (config : Config) (t : Traffic ChangeKey) (k : ChangeKey) (succeeded : Bool) :
    t.next (settling config t.queue k succeeded) =
      t.onQueue (settle config t.clock · k succeeded) := by
  simp only [settling, settle, Traffic.onQueue]
  split
  · rfl
  · split
    · rfl
    · rfl

theorem queue_step_get (config : Config) (now : Nat) (m : Moment) (s : Service) (ticket : Nat)
    (g : Getter ChangeKey) :
    (Worker.step config now m s ⟨ticket, .get g⟩).1.queue = (g.step ticket s.queue).1 := by
  simp only [step]
  cases g.step ticket s.queue with
  | mk q g' => cases g' <;> rfl

theorem getter_step_get (config : Config) (now : Nat) (m : Moment) (s : Service) (ticket : Nat)
    (g : Getter ChangeKey) :
    (Worker.step config now m s ⟨ticket, .get g⟩).2.1.again.getter = (g.step ticket s.queue).2 := by
  simp only [step]
  cases g.step ticket s.queue with
  | mk q g' => cases g' <;> rfl

theorem deal {w : Worker} {t : Traffic ChangeKey} {s : Service} (hqueue : t.queue = s.queue)
    (hi : t.getters[w.ticket]? = some w.getter) (config : Config) (m : Moment) :
    (w.dealing? config s.queue).elim t t.next =
      { t with
        queue := (w.step config t.clock m s).1.queue
        getters := t.getters.set w.ticket (w.step config t.clock m s).2.1.again.getter } := by
  have hset : t.getters.set w.ticket w.getter = t.getters := by
    obtain ⟨hlt, hget⟩ := List.getElem?_eq_some_iff.1 hi
    rw [← hget, List.set_getElem_self]
  have hrest : t = { t with queue := s.queue, getters := t.getters.set w.ticket w.getter } := by
    rw [hset, ← hqueue]
  obtain ⟨ticket, phase⟩ := w
  cases phase with
  | get g =>
      rw [queue_step_get, getter_step_get]
      have hopen (hagain : g.again = g) : t.next (.get ticket) =
          { t with
            queue := (g.step ticket s.queue).1
            getters := t.getters.set ticket (g.step ticket s.queue).2 } := by
        simp only [Traffic.next, hi, Option.elim_some, Traffic.get, getter, hagain, hqueue]
      cases g with
      | closed => exact hrest
      | _ => exact hopen rfl
  | handle k call =>
      have hstep : (Worker.step config t.clock m s ⟨ticket, .handle k call⟩).2.1.again.getter =
          .got k := by
        simp only [step]
        cases (call.step m s.cache).next.succeeded? <;> rfl
      rw [hstep]
      exact hrest
  | settle k succeeded =>
      have hgetters : t.getters.set ticket (.got k) = t.getters := hset
      show t.next (settling config s.queue k succeeded) =
        { t with
          queue := settle config t.clock s.queue k succeeded
          getters := t.getters.set ticket (.got k) }
      rw [hgetters, ← hqueue]
      exact next_settling config t k succeeded
  | release k =>
      have hkey : t.key? ticket = some k := by rw [Traffic.key?, hi]; rfl
      show t.next (.done ticket) =
        { t with queue := s.queue.release k, getters := t.getters.set ticket .enter }
      simp only [Traffic.next, hkey, Option.elim_some, Traffic.release, hqueue]
  | done more =>
      cases more with
      | true => exact hrest
      | false => exact hrest

/-- The key that the next step of a worker takes. -/
def takes? (q : Queue ChangeKey) (w : Worker) : Option ChangeKey :=
  match w.phase with
  | .get (.look _) => q.take?.map (·.1)
  | _ => none

theorem dealing?_cases {config : Config} {q : Queue ChangeKey} {w : Worker} {deal : Traffic.Event ChangeKey}
    (h : w.dealing? config q = some deal) :
    deal = .get w.ticket ∨ deal = .done w.ticket ∨
      ∃ k, deal = .forget k ∨ deal = .retry k ∨ deal = .drop k := by
  obtain ⟨ticket, phase⟩ := w
  cases phase with
  | get g =>
      refine .inl ?_
      cases g with
      | closed => cases h
      | _ => exact (Option.some.inj h).symm
  | settle k succeeded =>
      refine .inr (.inr ⟨k, ?_⟩)
      obtain rfl := Option.some.inj h
      rw [settling]
      split
      · exact .inl rfl
      · split
        · exact .inr (.inl rfl)
        · exact .inr (.inr rfl)
  | release k => exact .inr (.inl (Option.some.inj h).symm)
  | _ => cases h

theorem dealing?_ne_add (config : Config) (q : Queue ChangeKey) (w : Worker) (j : ChangeKey) :
    w.dealing? config q ≠ some (.add j) := by
  intro hadd
  rcases dealing?_cases hadd with hw | hw | ⟨k, hw | hw | hw⟩ <;> cases hw

theorem handed?_dealing? {w : Worker} {t : Traffic ChangeKey} (hi : t.getters[w.ticket]? = some w.getter)
    (config : Config) : (w.dealing? config t.queue).bind t.handed? = w.takes? t.queue := by
  obtain ⟨ticket, phase⟩ := w
  cases phase with
  | get g =>
      cases g with
      | closed => rfl
      | _ =>
          show t.handed? (.get ticket) = _
          rw [Traffic.handed?, hi]
          rfl
  | settle j succeeded =>
      show t.handed? (settling config t.queue j succeeded) = none
      rw [settling]
      split
      · rfl
      · split <;> rfl
  | _ => rfl

theorem ticket_step (config : Config) (now : Nat) (m : Moment) (s : Service) (w : Worker) :
    (w.step config now m s).2.1.again.ticket = w.ticket := by
  have hagain : ∀ w : Worker, w.again.ticket = w.ticket := by
    rintro ⟨ticket, phase⟩
    cases phase with
    | done more => cases more <;> rfl
    | _ => rfl
  rw [hagain]
  obtain ⟨ticket, phase⟩ := w
  cases phase with
  | get g =>
      simp only [step]
      split <;> rfl
  | _ => rfl

end Worker

/-- A loop shuts the queue down when it takes the signal; nothing else that it does is seen there. -/
def Loop.dealing? (now : Nat) (stopping : Bool) (pick : Cue) (l : Loop) : Option (Traffic.Event ChangeKey) :=
  match l.phase with
  | .wait =>
      match l.cue? now stopping pick with
      | some .signal => if l.ofService then some .shutDown else none
      | _ => none
  | _ => none

/-- The add that the next step of an event on its way makes. -/
def Publication.dealing? : Publication → Option (Traffic.Event ChangeKey)
  | enqueue _ (k :: _) => some (.add k)
  | _ => none

theorem Loop.deal {t : Traffic ChangeKey} {s : Service} (hqueue : t.queue = s.queue) (l : Loop)
    (stopping workersDone : Bool) (pick : Cue) (m : Moment) :
    (l.dealing? t.clock stopping pick).elim t t.next =
      { t with queue := (l.step t.clock stopping workersDone pick m s).1.queue } := by
  have hsame : t = { t with queue := s.queue } := by rw [← hqueue]
  obtain ⟨ofService, ticker, phase⟩ := l
  cases phase with
  | wait =>
      simp only [dealing?, step]
      cases cue? t.clock stopping pick ⟨ofService, ticker, .wait⟩ with
      | none => exact hsame
      | some cue =>
          cases cue with
          | tick => exact hsame
          | signal =>
              cases ofService with
              | false => exact hsame
              | true => rw [← hqueue]; rfl
  | pass p => exact hsame
  | drain =>
      simp only [step]
      split
      · exact hsame
      · exact hsame
  | stopped => exact hsame

theorem Publication.deal {t : Traffic ChangeKey} (p : Publication) (s : Stores) :
    p.dealing?.elim t t.next = { t with queue := (p.step s t.queue).2.1 } := by
  cases p with
  | event c =>
      simp only [step]
      split <;> rfl
  | update c keys => rfl
  | enqueue completion keys =>
      cases keys with
      | nil => rfl
      | cons k keys => rfl
  | done completion => rfl

namespace Deployment

variable {d d' : Deployment}

theorem clock_note (d : Deployment) (r : Runner) : (d.note r).clock = d.clock := by
  rw [note]
  split <;> rfl

/-- What no event takes back. -/
structure Continues (d d' : Deployment) : Prop where
  config : d'.config = d.config
  workers : d'.workers.length = d.workers.length
  stopping : d.stopping = true → d'.stopping = true

theorem Continues.refl (d : Deployment) : d.Continues d := ⟨rfl, rfl, id⟩

theorem continues_note (d : Deployment) (r : Runner) : d.Continues (d.note r) := by
  rw [note]
  split <;> exact ⟨rfl, rfl, id⟩

theorem continues_work (d : Deployment) (i : Nat) (w : Worker) (m : Moment) :
    d.Continues (d.work i w m) := by
  obtain ⟨hconfig, -, hstopping⟩ := d.continues_note (.worker i)
  exact ⟨hconfig, List.length_set, hstopping⟩

theorem continues_goOn (d : Deployment) (pick : Loop.Cue) (l : Loop) (m : Moment) :
    d.Continues (d.goOn pick l m) := by
  obtain ⟨hconfig, hworkers, hstopping⟩ := d.continues_note .loop
  exact ⟨hconfig, hworkers, hstopping⟩

theorem continues_next (d : Deployment) (e : Event) : d.Continues (d.next e) := by
  have hact : d.Continues (d.act e) := by
    cases e with
    | deliver i =>
        rw [act]
        cases d.publications[i]? <;> exact ⟨rfl, rfl, id⟩
    | work i m =>
        rw [act]
        cases d.workers[i]? with
        | none => exact .refl d
        | some w => exact d.continues_work i w (d.moment m)
    | loop pick m =>
        rw [act]
        cases d.loop with
        | none => exact .refl d
        | some l => exact d.continues_goOn pick l (d.moment m)
    | expire x =>
        rw [act]
        split <;> exact ⟨rfl, rfl, id⟩
    | stop => exact ⟨rfl, rfl, fun _ => rfl⟩
    | _ => exact ⟨rfl, rfl, id⟩
  exact ⟨hact.config, hact.workers, hact.stopping⟩

/-- The queue of a deployment with its workers as getters. -/
def traffic (d : Deployment) : Traffic ChangeKey :=
  ⟨d.service.queue, d.workers.map Worker.getter, d.clock⟩

/-- What an event is at the queue. -/
def dealing? (d : Deployment) : Event → Option (Traffic.Event ChangeKey)
  | .deliver i => d.publications[i]?.bind Publication.dealing?
  | .work i _ => d.workers[i]?.bind (Worker.dealing? d.config d.service.queue)
  | .loop pick _ => d.loop.bind (Loop.dealing? d.clock d.stopping pick)
  | .expire x => some (.expire x)
  | .elapse time => some (.elapse time)
  | .publish _ | .watch _ | .unwatch _ | .stop => none

/-- What the events of a run are at the queue. -/
def dealings (d : Deployment) (events : List Event) : List (Traffic.Event ChangeKey) :=
  shown next dealing? d events

def logs? (d : Deployment) (e : Event) : Option (Entry ChangeKey) :=
  (d.dealing? e).bind d.traffic.logs?

/-- The adds that the queue accepted and the keys that workers took, in order. -/
def log (d : Deployment) (events : List Event) : List (Entry ChangeKey) := shown next logs? d events

theorem getElem?_getters {i : Nat} {w : Worker} (hi : d.workers[i]? = some w) :
    d.traffic.getters[i]? = some w.getter := by
  rw [traffic, List.getElem?_map, hi]
  rfl

theorem exists_worker_of_getters {i : Nat} {g : Getter ChangeKey} (hi : d.traffic.getters[i]? = some g) :
    ∃ w, d.workers[i]? = some w ∧ w.getter = g := by
  rw [traffic, List.getElem?_map] at hi
  exact Option.map_eq_some_iff.1 hi

theorem getElem?_workers_work {i : Nat} {w : Worker} (hi : d.workers[i]? = some w) (m : Moment) :
    (d.next (.work i m)).workers[i]? =
      some (w.step d.config d.clock (d.moment m) d.service).2.1.again := by
  obtain ⟨hlt, -⟩ := List.getElem?_eq_some_iff.1 hi
  simp only [Deployment.next, act, hi]
  exact List.getElem?_set_self hlt

theorem getElem?_workers_next (d : Deployment) (e : Event) (i : Nat) :
    (d.next e).workers[i]? = d.workers[i]? ∨
      ∃ m w, e = .work i m ∧ d.workers[i]? = some w ∧
        (d.next e).workers[i]? =
          some (w.step d.config d.clock (d.moment m) d.service).2.1.again := by
  cases e with
  | deliver j =>
      simp only [Deployment.next, act]
      cases d.publications[j]? <;> exact .inl rfl
  | work j m =>
      cases hj : d.workers[j]? with
      | none =>
          simp only [Deployment.next, act, hj]
          exact .inl rfl
      | some w =>
          by_cases hij : j = i
          · subst hij
            exact .inr ⟨m, w, rfl, hj, getElem?_workers_work hj m⟩
          · simp only [Deployment.next, act, hj]
            exact .inl (List.getElem?_set_ne hij)
  | loop pick m =>
      simp only [Deployment.next, act]
      cases d.loop with
      | none => exact .inl rfl
      | some l => exact .inl (congrArg (·[i]?) (d.workers_note .loop))
  | expire x =>
      simp only [Deployment.next, act]
      split <;> exact .inl rfl
  | _ => exact .inl rfl

/-- Every worker waits under its own ticket. -/
def Seated (d : Deployment) : Prop := ∀ (i : Nat) (w : Worker), d.workers[i]? = some w → w.ticket = i

theorem seated_boot (config : Config) (workers : Nat) (period : Option Nat) :
    (boot config workers period).Seated := by
  intro i w hw
  simp only [boot, List.getElem?_map, Option.map_eq_some_iff] at hw
  obtain ⟨j, hj, rfl⟩ := hw
  obtain ⟨hlt, rfl⟩ := List.getElem?_eq_some_iff.1 hj
  rw [List.getElem_range]
  rfl

theorem Seated.next (h : d.Seated) (e : Event) : (d.next e).Seated := by
  intro i v hv
  rcases d.getElem?_workers_next e i with hsame | ⟨m, w, -, hw, hnext⟩
  · exact h i v (hsame.symm.trans hv)
  · obtain rfl := Option.some.inj (hnext.symm.trans hv)
    rw [Worker.ticket_step]
    exact h i w hw

theorem run_append (d : Deployment) (a b : List Event) : d.run (a ++ b) = (d.run a).run b :=
  List.foldl_append

theorem Seated.run (h : d.Seated) (events : List Event) : (d.run events).Seated := by
  induction events generalizing d with
  | nil => exact h
  | cons e events ih => exact ih (h.next e)

theorem seated_run (config : Config) (workers : Nat) (period : Option Nat) (events : List Event) :
    ((boot config workers period).run events).Seated := by
  induction events using List.reverseRecOn with
  | nil => exact seated_boot config workers period
  | append_singleton events e ih =>
      rw [run, List.foldl_concat]
      exact ih.next e

theorem Seated.traffic_next (h : d.Seated) (e : Event) :
    (d.next e).traffic = (d.dealing? e).elim d.traffic d.traffic.next := by
  cases e with
  | deliver i =>
      simp only [Deployment.next, act, dealing?]
      cases d.publications[i]? with
      | none => rfl
      | some p => exact (p.deal (t := d.traffic) d.stores).symm
  | work i m =>
      simp only [Deployment.next, act, dealing?]
      cases hi : d.workers[i]? with
      | none => rfl
      | some w =>
          obtain rfl := h i w hi
          have hdeal := Worker.deal (t := d.traffic) (s := d.service) rfl (getElem?_getters hi)
            d.config (d.moment m)
          rw [Option.bind_some, hdeal]
          simp only [Option.elim_some, work, traffic, List.map_set, clock_note]
  | loop pick m =>
      simp only [Deployment.next, act, dealing?]
      cases d.loop with
      | none => rfl
      | some l =>
          have hdeal : (l.dealing? d.clock d.stopping pick).elim d.traffic d.traffic.next =
              { d.traffic with
                queue := (l.step d.clock d.stopping d.workersDone pick (d.moment m) d.service).1.queue } :=
            Loop.deal (t := d.traffic) (s := d.service) rfl l d.stopping d.workersDone pick (d.moment m)
          rw [Option.bind_some, hdeal]
          simp only [Option.elim_some, goOn, traffic, workers_note, clock_note]
  | expire x =>
      simp only [Deployment.next, act, dealing?, Option.elim_some, Traffic.next]
      by_cases hx : x ∈ d.service.queue.delayed ∧ x.due ≤ d.clock
      · rw [if_pos hx]
        exact (if_pos hx).symm
      · rw [if_neg hx]
        exact (if_neg hx).symm
  | _ => rfl

theorem Seated.queue_next (h : d.Seated) (e : Event) :
    (d.next e).service.queue = ((d.dealing? e).elim d.traffic d.traffic.next).queue :=
  congrArg Traffic.queue (h.traffic_next e)

theorem Seated.dirty_next (h : d.Seated) (hk : k ∈ d.service.queue.dirty) (e : Event) :
    k ∈ (d.next e).service.queue.dirty ∨ d.logs? e = some (.handed k) := by
  rw [h.queue_next e, logs?]
  cases d.dealing? e with
  | none => exact .inl hk
  | some deal => exact (d.traffic.move deal).dirty hk

theorem traffic_boot (config : Config) (workers : Nat) (period : Option Nat) :
    (boot config workers period).traffic = Traffic.boot config.limiter workers := by
  simp only [traffic, boot, Traffic.boot, List.map_map]
  refine congrArg (Traffic.mk _ · 0) ?_
  rw [List.eq_replicate_iff]
  refine ⟨by rw [List.length_map, List.length_range], ?_⟩
  intro g hg
  obtain ⟨i, -, rfl⟩ := List.mem_map.1 hg
  rfl

theorem Seated.traffic_run (h : d.Seated) (events : List Event) :
    (d.run events).traffic = d.traffic.run (d.dealings events) ∧
      d.log events = d.traffic.log (d.dealings events) := by
  induction events generalizing d with
  | nil => exact ⟨rfl, rfl⟩
  | cons e events ih =>
      obtain ⟨hrun, hlog⟩ := ih (h.next e)
      have hnext := h.traffic_next e
      have hcons : d.log (e :: events) = (d.logs? e).toList ++ (d.next e).log events := rfl
      have hdealings : d.dealings (e :: events) = (d.dealing? e).toList ++ (d.next e).dealings events :=
        rfl
      show ((d.next e).run events).traffic = _ ∧ _
      rw [hdealings, hcons, hlog, hrun, hnext, logs?]
      cases d.dealing? e with
      | none => exact ⟨rfl, rfl⟩
      | some deal => exact ⟨rfl, rfl⟩

theorem Seated.takes?_eq_none (h : d.Seated) {i : Nat} {w : Worker} (hi : d.workers[i]? = some w)
    {m : Moment} (hentry : d.logs? (.work i m) = none) : w.takes? d.service.queue = none := by
  obtain rfl := h i w hi
  have htakes : (w.dealing? d.config d.service.queue).bind d.traffic.handed? =
      w.takes? d.service.queue := Worker.handed?_dealing? (getElem?_getters hi) d.config
  rw [← htakes, Option.bind_eq_none_iff]
  intro deal hdeal
  simp only [logs?, dealing?, hi, Option.bind_some, hdeal, Traffic.logs?] at hentry
  split at hentry
  · cases hentry
  · assumption

theorem custody_run (config : Config) (workers : Nat) (period : Option Nat) (events : List Event) :
    ((boot config workers period).run events).Custody := by
  have hreachable : Reachable anything (boot config workers period)
      ((boot config workers period).run events) := Reachable.run .init fun _ _ _ => trivial
  exact hreachable.custody

theorem Custody.run (h : d.Custody) (events : List Event) : (d.run events).Custody := by
  induction events generalizing d with
  | nil => exact h
  | cons e events ih => exact ih (h.next e)

/-- A service is a run of traffic that starts with an empty queue and as many getters as workers. -/
theorem exists_traffic_run (config : Config) (workers : Nat) (period : Option Nat) (events : List Event) :
    ∃ deals, ((boot config workers period).run events).traffic =
        (Traffic.boot config.limiter workers).run deals ∧
      (boot config workers period).log events = (Traffic.boot config.limiter workers).log deals := by
  have hrun := (seated_boot config workers period).traffic_run events
  rw [traffic_boot] at hrun
  exact ⟨_, hrun⟩

theorem books_run (config : Config) (workers : Nat) (period : Option Nat) (events : List Event) :
    ((boot config workers period).run events).traffic.Books
      ((boot config workers period).log events) := by
  obtain ⟨deals, hrun, hlog⟩ := exists_traffic_run config workers period events
  rw [hrun, hlog]
  exact Traffic.books_run config.limiter workers deals

end Deployment

end Visibility
