import Mathlib.Logic.Function.Basic
import Visibility.Proofs.Cache.Locks
import Visibility.Service.Loop
import Visibility.Service.Worker

/-!
A service among its surroundings: events on their way, workers, and the loop in the background.

One event is one step of any of them, so that anything can come between two steps of another. A
deployment also keeps when keys were taken and when the passes that were carried out had begun.
-/

namespace Visibility

/-- The call that a worker makes for its key. -/
def Worker.call? (w : Worker) : Option Call :=
  match w.phase with
  | .handle _ call => some call
  | _ => none

/-- A worker that is done with a key goes for the next one. -/
def Worker.again (w : Worker) : Worker :=
  match w.phase with
  | .done true => start w.ticket
  | _ => w

def Loop.call? (l : Loop) : Option Call :=
  match l.phase with
  | .pass p => some (.pass p)
  | _ => none

/-- Who makes calls. -/
inductive Runner where
  | worker (index : Nat)
  | loop
deriving DecidableEq

/-- A service and all that goes on in it. -/
structure Deployment where
  config : Config
  service : Service
  stores : Stores := {}
  /-- The events that came so far. -/
  publications : List Publication := []
  workers : List Worker
  loop : Option Loop
  /-- The time, in milliseconds. -/
  clock : Nat := 0
  stopping : Bool := false
  /-- The number of steps so far. -/
  now : Nat := 0
  /-- When each worker last looked for a key, which is when it took the one that it has. -/
  taken : Nat → Nat := fun _ => 0
  /-- When the last pass of each began. -/
  entered : Runner → Nat := fun _ => 0
  /-- When the passes began that were carried out. -/
  carriedOut : List Nat := []

namespace Deployment

/-- One step of something that goes on, or a change from outside. -/
inductive Event where
  | publish (change : Change)
  /-- A step of an event on its way. -/
  | deliver (index : Nat)
  | work (index : Nat) (moment : Moment)
  /-- A step of the loop, with the cue that it takes if it finds both. -/
  | loop (pick : Loop.Cue) (moment : Moment)
  /-- The end of the delay of a key. -/
  | expire (d : Delayed ChangeKey)
  | watch (watcher : String)
  | unwatch (watcher : String)
  | elapse (time : Nat)
  | stop

/-- A service without anything in its stores; without a period there is no loop. -/
def boot (config : Config) (workers : Nat) (period : Option Nat) : Deployment where
  config
  service := .new config
  workers := (List.range workers).map .start
  loop := period.bind (Loop.start? true · 0)

/-- A moment of the deployment: its stores, and all else as given. -/
def moment (d : Deployment) (m : Moment) : Moment := { m with stores := d.stores }

def call? (d : Deployment) : Runner → Option Call
  | .worker i => d.workers[i]?.bind Worker.call?
  | .loop => d.loop.bind Loop.call?

/-- Whether all workers have ended. -/
def workersDone (d : Deployment) : Bool :=
  d.workers.all fun w =>
    match w.phase with
    | .done _ => true
    | _ => false

/-- Notes that a pass begins or is carried out with the next step. -/
def note (d : Deployment) (r : Runner) : Deployment :=
  match d.call? r with
  | some (.pass .enter) => { d with entered := Function.update d.entered r d.now }
  | some (.pass (.finish _)) => { d with carriedOut := d.entered r :: d.carriedOut }
  | _ => d

/-- When each worker last looked for a key, after a step of one of them. -/
def takenAfter (d : Deployment) (i : Nat) (w : Worker) : Nat → Nat :=
  match w.phase with
  | .get _ => Function.update d.taken i d.now
  | _ => d.taken

def work (d : Deployment) (i : Nat) (w : Worker) (m : Moment) : Deployment :=
  let r := w.step d.config d.clock m d.service
  { d.note (.worker i) with
    service := r.1
    workers := d.workers.set i r.2.1.again
    taken := d.takenAfter i w }

def goOn (d : Deployment) (pick : Loop.Cue) (l : Loop) (m : Moment) : Deployment :=
  let r := l.step d.clock d.stopping d.workersDone pick m d.service
  { d.note .loop with service := r.1, loop := some r.2.1 }

def deliver (d : Deployment) (i : Nat) (p : Publication) : Deployment :=
  let r := p.step d.stores d.service.queue
  { d with
    stores := r.1
    service := { d.service with queue := r.2.1 }
    publications := d.publications.set i r.2.2 }

def setCache (d : Deployment) (c : Cache) : Deployment :=
  { d with service := { d.service with cache := c } }

/-- What an event does, but for the time. -/
def act (d : Deployment) : Event → Deployment
  | .publish c => { d with publications := d.publications ++ [.event c] }
  | .deliver i => d.publications[i]?.elim d (d.deliver i)
  | .work i m => d.workers[i]?.elim d (d.work i · (d.moment m))
  | .loop pick m => d.loop.elim d (d.goOn pick · (d.moment m))
  | .expire x =>
      if x ∈ d.service.queue.delayed ∧ x.due ≤ d.clock then
        { d with service := { d.service with queue := d.service.queue.expire x } }
      else d
  | .watch w => d.setCache (d.service.cache.addWatcher w)
  | .unwatch w => d.setCache (d.service.cache.removeWatcher w)
  | .elapse time => { d with clock := d.clock + time }
  | .stop => { d with stopping := true }

def next (d : Deployment) (e : Event) : Deployment := { d.act e with now := d.now + 1 }

/-- What a deployment comes to when every event is one that is allowed at its time. -/
inductive Reachable (allowed : Deployment → Event → Prop) (start : Deployment) :
    Deployment → Prop where
  | init : Reachable allowed start start
  | next {d : Deployment} {e : Event} :
      Reachable allowed start d → allowed d e → Reachable allowed start (d.next e)

def anything (_ : Deployment) (_ : Event) : Prop := True

def run (d : Deployment) (events : List Event) : Deployment := events.foldl next d

theorem Reachable.run {allowed : Deployment → Event → Prop} {start d : Deployment}
    {events : List Event} (h : Reachable allowed start d)
    (hall : ∀ e ∈ events, ∀ d, allowed d e) : Reachable allowed start (d.run events) := by
  induction events generalizing d with
  | nil => exact h
  | cons e events ih =>
      rw [List.forall_mem_cons] at hall
      exact ih (.next h (hall.1 d)) hall.2

end Deployment

/-- The call for a key, as it is launched. -/
def ChangeKey.launch : ChangeKey → Launch
  | cluster => .pass
  | ns name => .refresh name none

theorem ChangeKey.call_launch (k : ChangeKey) : k.launch.call = k.call := by
  cases k with
  | cluster => rfl
  | ns name => rfl

theorem ChangeKey.ended_call (k : ChangeKey) : k.call.ended = false := by
  cases k with
  | cluster => rfl
  | ns name => rfl

theorem Call.isSome_succeeded? (call : Call) : call.succeeded?.isSome = call.ended := by
  cases call with
  | refresh r => exact Option.isSome_map
  | pass p =>
      cases p with
      | done result => rfl
      | _ => rfl

/-- The call as its runner has it after a step; one that ended is not under way any more. -/
def Call.unended (call : Call) : Option Call := if call.ended then none else some call

theorem Call.unended_of_succeeded? {call : Call} (h : call.succeeded? = none) :
    call.unended = some call := by
  have hended := call.isSome_succeeded?
  rw [h] at hended
  rw [unended, ← hended]
  rfl

theorem Call.unended_of_succeeded {call : Call} {succeeded : Bool}
    (h : call.succeeded? = some succeeded) : call.unended = none := by
  have hended := call.isSome_succeeded?
  rw [h] at hended
  rw [unended, ← hended]
  rfl

/-- What a step of a runner does to the cache and to the call that the runner makes: it makes none, or
begins one, or makes one step of it. -/
inductive Shift (m : Moment) (c : Cache) : Option Call → Cache → Option Call → Prop where
  | rest : Shift m c none c none
  | begin (key : ChangeKey) : Shift m c none c (some key.call)
  | step (call : Call) :
      Shift m c (some call) (call.step m c).cache (call.step m c).next.unended

theorem Shift.exists_key {m : Moment} {c c' : Cache} {call : Call}
    (h : Shift m c none c' (some call)) : ∃ key : ChangeKey, call = key.call := by
  generalize hafter : some call = after at h
  cases h with
  | rest => cases hafter
  | begin key => exact ⟨key, Option.some.inj hafter⟩

theorem Shift.eq_next {m : Moment} {c c' : Cache} {call call' : Call}
    (h : Shift m c (some call) c' (some call')) : call' = (call.step m c).next := by
  generalize hafter : some call' = after at h
  cases h with
  | step _ =>
      rw [Call.unended] at hafter
      split at hafter
      · cases hafter
      · exact Option.some.inj hafter

theorem Worker.call?_again (w : Worker) : w.again.call? = w.call? := by
  obtain ⟨ticket, phase⟩ := w
  cases phase with
  | done more => cases more <;> rfl
  | _ => rfl

theorem Worker.shift (config : Config) (now : Nat) (m : Moment) (s : Service) (w : Worker) :
    Shift m s.cache w.call? (w.step config now m s).1.cache
      (w.step config now m s).2.1.again.call? := by
  rw [call?_again]
  obtain ⟨ticket, phase⟩ := w
  cases phase with
  | get g =>
      simp only [step]
      split
      · rename_i q key hg
        exact .begin key
      · exact .rest
      · exact .rest
  | handle key call =>
      have hstep := Shift.step (m := m) (c := s.cache) call
      simp only [step]
      cases hs : (call.step m s.cache).next.succeeded? with
      | none =>
          rw [Call.unended_of_succeeded? hs] at hstep
          exact hstep
      | some succeeded =>
          rw [Call.unended_of_succeeded hs] at hstep
          exact hstep
  | settle key succeeded => exact .rest
  | release key => exact .rest
  | done more => exact .rest

theorem Loop.shift (now : Nat) (stop workersDone : Bool) (pick : Cue) (m : Moment) (s : Service) (l : Loop) :
    Shift m s.cache l.call? (l.step now stop workersDone pick m s).1.cache
      (l.step now stop workersDone pick m s).2.1.call? := by
  obtain ⟨ofService, ticker, phase⟩ := l
  cases phase with
  | wait =>
      simp only [step]
      split
      · split
        · exact .rest
        · exact .rest
      · exact .begin .cluster
      · exact .rest
  | pass p =>
      have hstep := Shift.step (m := m) (c := s.cache) (.pass p)
      simp only [step, Call.step] at hstep ⊢
      cases hnext : (p.step m s.cache).next with
      | done result =>
          rw [hnext] at hstep
          exact hstep
      | _ =>
          rw [hnext] at hstep
          exact hstep
  | drain =>
      simp only [step]
      split
      · exact .rest
      · exact .rest
  | stopped => exact .rest

namespace Deployment

variable {d d' : Deployment}

theorem takenAfter_of_ne {i j : Nat} (h : j ≠ i) (w : Worker) : d.takenAfter i w j = d.taken j := by
  obtain ⟨ticket, phase⟩ := w
  cases phase with
  | get g => exact Function.update_of_ne h _ _
  | _ => rfl

theorem stores_note (d : Deployment) (r : Runner) : (d.note r).stores = d.stores := by
  rw [note]
  split <;> rfl

theorem publications_note (d : Deployment) (r : Runner) :
    (d.note r).publications = d.publications := by
  rw [note]
  split <;> rfl

theorem loop_note (d : Deployment) (r : Runner) : (d.note r).loop = d.loop := by
  rw [note]
  split <;> rfl

theorem workers_note (d : Deployment) (r : Runner) : (d.note r).workers = d.workers := by
  rw [note]
  split <;> rfl

theorem call?_note (d : Deployment) (r : Runner) : (d.note r).call? = d.call? := by
  rw [note]
  split <;> rfl

/-- What an event does to the stores, the cache and the calls. -/
inductive Turn (d d' : Deployment) : Prop where
  | rest (hcache : d'.service.cache = d.service.cache) (hstores : d'.stores = d.stores)
      (hcalls : d'.call? = d.call?)
  | change (c : Change) (hcache : d'.service.cache = d.service.cache)
      (hstores : d'.stores = (d.stores.apply c).1) (hcalls : d'.call? = d.call?)
  | watch (w : String) (hcache : d'.service.cache = d.service.cache.addWatcher w)
      (hstores : d'.stores = d.stores) (hcalls : d'.call? = d.call?)
  | unwatch (w : String) (hcache : d'.service.cache = d.service.cache.removeWatcher w)
      (hstores : d'.stores = d.stores) (hcalls : d'.call? = d.call?)
  | run (r : Runner) (m : Moment)
      (hshift : Shift (d.moment m) d.service.cache (d.call? r) d'.service.cache (d'.call? r))
      (hstores : d'.stores = d.stores) (hcalls : ∀ r', r' ≠ r → d'.call? r' = d.call? r')

theorem shift_work {i : Nat} {w : Worker} (m : Moment) (hi : d.workers[i]? = some w) :
    Shift m d.service.cache (d.call? (.worker i)) (d.work i w m).service.cache
      ((d.work i w m).call? (.worker i)) := by
  have hbefore : d.call? (.worker i) = w.call? := by rw [call?, hi, Option.bind_some]
  have hafter : (d.work i w m).call? (.worker i) =
      (w.step d.config d.clock m d.service).2.1.again.call? := by
    obtain ⟨hlt, -⟩ := List.getElem?_eq_some_iff.1 hi
    simp only [work, call?]
    rw [List.getElem?_set_self hlt, Option.bind_some]
  rw [hbefore, hafter]
  exact w.shift d.config d.clock m d.service

theorem turn_work {i : Nat} {w : Worker} (m : Moment) (hi : d.workers[i]? = some w) :
    d.Turn (d.work i w (d.moment m)) := by
  refine .run (.worker i) m (shift_work _ hi) (d.stores_note _) ?_
  intro r hr
  have hcalls := congrFun (d.call?_note (.worker i)) r
  cases r with
  | worker j =>
      have hij : i ≠ j := fun h => hr (h ▸ rfl)
      simp only [work, call?]
      rw [List.getElem?_set_ne hij]
  | loop => exact hcalls

theorem turn_goOn {l : Loop} (pick : Loop.Cue) (m : Moment) (hl : d.loop = some l) :
    d.Turn (d.goOn pick l (d.moment m)) := by
  refine .run .loop m ?_ (d.stores_note _) ?_
  · have hbefore : d.call? .loop = l.call? := by rw [call?, hl, Option.bind_some]
    rw [hbefore]
    exact l.shift d.clock d.stopping d.workersDone pick (d.moment m) d.service
  · intro r hr
    have hcalls := congrFun (d.call?_note .loop) r
    cases r with
    | worker j => exact hcalls
    | loop => exact absurd rfl hr

theorem turn_deliver (d : Deployment) (i : Nat) (p : Publication) : d.Turn (d.deliver i p) := by
  cases p with
  | event c =>
      have hstores : (Publication.step d.stores d.service.queue (.event c)).1 = d.stores := by
        rw [Publication.step]
        split <;> rfl
      exact .rest rfl hstores rfl
  | update c keys => exact .change c rfl rfl rfl
  | enqueue completion keys =>
      cases keys with
      | nil => exact .rest rfl rfl rfl
      | cons k keys => exact .rest rfl rfl rfl
  | done completion => exact .rest rfl rfl rfl

theorem turn_act (d : Deployment) (e : Event) : d.Turn (d.act e) := by
  cases e with
  | publish c => exact .rest rfl rfl rfl
  | deliver i =>
      simp only [act]
      cases d.publications[i]? with
      | none => exact .rest rfl rfl rfl
      | some p => exact d.turn_deliver i p
  | work i m =>
      simp only [act]
      cases hi : d.workers[i]? with
      | none => exact .rest rfl rfl rfl
      | some w => exact turn_work m hi
  | loop pick m =>
      simp only [act]
      cases hl : d.loop with
      | none => exact .rest rfl rfl rfl
      | some l => exact turn_goOn pick m hl
  | expire x =>
      simp only [act]
      split
      · exact .rest rfl rfl rfl
      · exact .rest rfl rfl rfl
  | watch w => exact .watch w rfl rfl rfl
  | unwatch w => exact .unwatch w rfl rfl rfl
  | elapse time => exact .rest rfl rfl rfl
  | stop => exact .rest rfl rfl rfl

theorem turn (d : Deployment) (e : Event) : d.Turn (d.next e) := by
  cases d.turn_act e with
  | rest hcache hstores hcalls => exact .rest hcache hstores hcalls
  | change c hcache hstores hcalls => exact .change c hcache hstores hcalls
  | watch w hcache hstores hcalls => exact .watch w hcache hstores hcalls
  | unwatch w hcache hstores hcalls => exact .unwatch w hcache hstores hcalls
  | run r m hshift hstores hcalls => exact .run r m hshift hstores hcalls

end Deployment

end Visibility
