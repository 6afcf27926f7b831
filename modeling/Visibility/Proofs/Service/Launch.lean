import Visibility.Proofs.Options
import Visibility.Proofs.Service.RetrySchedule
import Visibility.Scenario.Begin

namespace Visibility

namespace Queue

variable {κ : Type} [DecidableEq κ] {q : Queue κ} {k : κ}

/-- One failure more, if 32 bits hold the count. -/
def countUp? (failures : Nat) : Option Nat :=
  if failures + 1 < UInt32.size then some (failures + 1) else none

/-- Counts a failure of a key in 32 bits, and adds the key after the delay that its failures ask for. -/
def retryWithin? (q : Queue κ) (now : Nat) (k : κ) : Option (Queue κ) :=
  (countUp? (q.requeues k)).map fun failures =>
    { q with
      failures := (k, failures) :: (q.forget k).failures
      metrics := { q.metrics with retries := q.metrics.retries + 1 }
    }.addAfter now (q.limiter.delay failures) k

theorem retryWithin?_eq (h : q.requeues k + 1 < UInt32.size) (now : Nat) : q.retryWithin? now k = some (q.retry now k) := by
  rw [retryWithin?, countUp?, if_pos h]
  rfl

end Queue

namespace Worker

/-- Settles a key, as long as its failures can be counted. -/
def settle? (config : Config) (now : Nat) (q : Queue ChangeKey) (key : ChangeKey) (succeeded : Bool) :
    Option (Queue ChangeKey) :=
  if succeeded then some (q.forget key)
  else if q.requeues key < config.maxRetries then q.retryWithin? now key
  else some (q.drop key)

/-- A step of a worker, as long as the failures of its key can be counted. -/
def step? (config : Config) (now : Nat) (m : Moment) (s : Service) (w : Worker) :
    Option (Service × Worker × Option Effect) :=
  match w.phase with
  | .settle key succeeded =>
      (settle? config now s.queue key succeeded).map fun q =>
        ({ s with queue := q }, { w with phase := .release key }, none)
  | _ => some (w.step config now m s)

variable {config : Config}

theorem settle?_eq (h : config.maxRetries < UInt32.size) (now : Nat) (q : Queue ChangeKey) (key : ChangeKey)
    (succeeded : Bool) : settle? config now q key succeeded = some (settle config now q key succeeded) := by
  rw [settle?, settle]
  split
  · rfl
  · split
    · rename_i hleft
      exact Queue.retryWithin?_eq (Nat.lt_of_le_of_lt hleft h) now
    · rfl

theorem step?_eq (h : config.maxRetries < UInt32.size) (now : Nat) (m : Moment) (s : Service) (w : Worker) :
    w.step? config now m s = some (w.step config now m s) := by
  obtain ⟨ticket, phase⟩ := w
  cases phase with
  | settle key succeeded =>
      simp only [step?, settle?_eq h]
      rfl
  | _ => rfl

end Worker

namespace Deployment

variable {d : Deployment}

def work? (d : Deployment) (i : Nat) (w : Worker) (m : Moment) : Option Deployment :=
  (w.step? d.config d.clock m d.service).map fun r =>
    { d.note (.worker i) with
      service := r.1
      workers := d.workers.set i r.2.1.again
      taken := d.takenAfter i w }

def act? (d : Deployment) : Event → Option Deployment
  | .work i m => d.workers[i]?.elim (some d) (d.work? i · (d.moment m))
  | e => some (d.act e)

def next? (d : Deployment) (e : Event) : Option Deployment :=
  (d.act? e).map fun d' => { d' with now := d.now + 1 }

/-- What a deployment comes to as long as all failures can be counted. -/
def run? (d : Deployment) (events : List Event) : Option Deployment := events.foldlM next? d

theorem next?_eq (h : d.config.maxRetries < UInt32.size) (e : Event) : d.next? e = some (d.next e) := by
  have hact : d.act? e = some (d.act e) := by
    cases e with
    | work i m =>
        rw [act?, act]
        cases d.workers[i]? with
        | none => rfl
        | some w =>
            rw [Option.elim_some, Option.elim_some, work?, Worker.step?_eq h]
            rfl
    | _ => rfl
  rw [next?, hact]
  rfl

theorem run?_eq (h : d.config.maxRetries < UInt32.size) (events : List Event) :
    d.run? events = some (d.run events) := by
  induction events generalizing d with
  | nil => rfl
  | cons e events ih =>
      have hconfig : (d.next e).config = d.config := (d.continues_next e).config
      rw [run?, List.foldlM_cons, next?_eq h]
      exact ih (hconfig ▸ h)

end Deployment

theorem Clock.after_le (now wait : Nat) : after now wait ≤ now + longestWait :=
  Nat.add_le_add_left (Nat.min_le_right _ _) now

theorem Queue.mem_delayed_addAfter {κ : Type} [DecidableEq κ] {q : Queue κ} {now delay : Nat} {k : κ}
    {x : Delayed κ} (h : x ∈ (q.addAfter now delay k).delayed) :
    x ∈ q.delayed ∨ x.due = Clock.after now delay := by
  rw [addAfter] at h
  split at h
  · exact .inl h
  · split at h
    · exact .inl (delayed_add q k ▸ h)
    · obtain h | h := List.mem_append.1 h
      · exact .inl h
      · obtain rfl := List.mem_singleton.1 h
        exact .inr rfl

namespace Traffic

variable {κ : Type} [DecidableEq κ] {t : Traffic κ}

/-- No delay ends later than the longest wait from now. -/
def Timely (t : Traffic κ) : Prop := ∀ x ∈ t.queue.delayed, x.due ≤ t.clock + Clock.longestWait

theorem Timely.next (h : t.Timely) (e : Event κ) : (t.next e).Timely := by
  have haddAfter : ∀ (q : Queue κ) (delay : Nat) (k : κ), q.delayed = t.queue.delayed →
      Timely { t with queue := q.addAfter t.clock delay k } := by
    intro q delay k hq x hx
    obtain hx | hx := Queue.mem_delayed_addAfter hx
    · exact h x (hq ▸ hx)
    · exact hx ▸ Clock.after_le t.clock delay
  cases e with
  | add k =>
      intro x hx
      exact h x (Queue.delayed_add t.queue k ▸ hx)
  | addAfter delay k => exact haddAfter t.queue delay k rfl
  | retry k => exact haddAfter _ _ k rfl
  | expire y =>
      rw [Traffic.next]
      split
      · intro x hx
        have hx : x ∈ (t.queue.expire y).delayed := hx
        rw [Queue.expire, Queue.delayed_add] at hx
        exact h x (List.mem_of_mem_erase hx)
      · exact h
  | get i =>
      rw [Traffic.next]
      cases t.getters[i]? with
      | none => exact h
      | some g =>
          have hdelayed : (g.again.step i t.queue).1.delayed = t.queue.delayed := by
            obtain ⟨wake, hwake⟩ | ⟨k, htake⟩ := g.again.step_queue i t.queue
            · rw [hwake]
            · exact Queue.delayed_take? htake
          intro x hx
          exact h x (hdelayed ▸ hx)
  | done i =>
      rw [Traffic.next]
      cases t.key? i with
      | none => exact h
      | some k =>
          intro x hx
          exact h x (Queue.delayed_release t.queue k ▸ hx)
  | shutDown => exact List.forall_mem_nil _
  | elapse time =>
      intro x hx
      have hdue := h x hx
      show x.due ≤ t.clock + time + Clock.longestWait
      omega
  | _ => exact h

theorem timely_run (limiter : Limiter) (getters : Nat) (events : List (Event κ)) :
    ((boot limiter getters).run events).Timely := by
  induction events using List.reverseRecOn with
  | nil => exact nofun
  | append_singleton events e ih =>
      rw [run, List.foldl_concat]
      exact ih.next e

end Traffic

theorem Ticker.due_tick {t : Ticker} {now : Nat} (h : t.due ≤ now) :
    (t.tick now).due ≤ now + Clock.longestWait := by
  refine Nat.le_trans (Clock.after_le _ _) (Nat.add_le_add_right ?_ _)
  split
  · exact Nat.le_refl now
  · exact h

theorem Loop.ticker_step (now : Nat) (stop workersDone : Bool) (pick : Cue) (m : Moment) (s : Service) (l : Loop) :
    (l.step now stop workersDone pick m s).2.1.ticker = l.ticker ∨
      l.ticker.due ≤ now ∧ (l.step now stop workersDone pick m s).2.1.ticker = l.ticker.tick now := by
  obtain ⟨ofService, ticker, phase⟩ := l
  cases phase with
  | wait =>
      simp only [step]
      split
      · split <;> exact .inl rfl
      · rename_i hcue
        exact .inr ⟨due_of_cue? hcue, rfl⟩
      · exact .inl rfl
  | pass p => exact .inl rfl
  | drain =>
      simp only [step]
      split <;> exact .inl rfl
  | stopped => exact .inl rfl

namespace Deployment

/-- No timer runs longer than the longest wait from now. -/
structure Timely (d : Deployment) : Prop where
  delays : ∀ x ∈ d.service.queue.delayed, x.due ≤ d.clock + Clock.longestWait
  ticker : ∀ l, d.loop = some l → l.ticker.due ≤ d.clock + Clock.longestWait

theorem timely_run (config : Config) (workers : Nat) (period : Option Nat) (events : List Event) :
    ((boot config workers period).run events).Timely := by
  constructor
  · obtain ⟨deals, hrun, -⟩ := exists_traffic_run config workers period events
    have h := Traffic.timely_run config.limiter workers deals
    rw [← hrun] at h
    exact h
  · induction events using List.reverseRecOn with
    | nil =>
        intro l hl
        obtain ⟨p, -, hstart⟩ := Option.bind_eq_some_iff.1 hl
        obtain ⟨ticker, hticker, rfl⟩ := Option.map_eq_some_iff.1 hstart
        rw [Ticker.start?] at hticker
        split at hticker
        · cases hticker
        · cases hticker
          exact Nat.zero_le _
    | append_singleton events e ih =>
        intro l hl
        rw [run, List.foldl_concat, ← run] at hl ⊢
        generalize (boot config workers period).run events = d at ih hl ⊢
        have hclock := d.le_clock_next e
        obtain hsame | ⟨pick, m, l', -, hl', hnext⟩ := d.loop_next e
        · have hdue := ih l (hsame ▸ hl)
          omega
        · obtain rfl := Option.some.inj (hnext.symm.trans hl)
          obtain hticker | ⟨hdue, hticker⟩ :=
            Loop.ticker_step d.clock d.stopping d.workersDone pick (d.moment m) d.service l'
          · have hdue := ih l' hl'
            rw [hticker]
            omega
          · have hdue := Ticker.due_tick hdue
            rw [hticker]
            omega

end Deployment

namespace Options

open Deployment (Event)
open Scenario (World)

/-- The service that the options ask for, if it can run. -/
def launch? (opts : Options) : Option Deployment :=
  (Loop.start? true opts.period 0).map fun _ => .serve opts.config opts.period

/-- What the service comes to, unless it could not run or did not count a failure. -/
def run? (opts : Options) (events : List Event) : Option Deployment := opts.launch?.bind (·.run? events)

variable {opts : Options}

theorem start?_eq_none_iff (opts : Options) (ofService : Bool) (now : Nat) :
    Loop.start? ofService opts.period now = none ↔ opts.resyncPeriodSecs = 0 := by
  rw [Loop.start?, Option.map_eq_none_iff, Ticker.start?, period]
  by_cases hzero : opts.resyncPeriodSecs = 0
  · simp [hzero]
  · simp only [hzero, iff_false]
    rw [if_neg (by omega)]
    exact Option.some_ne_none _

theorem handle_start_eq_broken_iff (opts : Options) (w : World) :
    (w.start true opts.period).handle = .broken ↔ opts.resyncPeriodSecs = 0 := by
  rw [← opts.start?_eq_none_iff true w.now, World.start]
  cases Loop.start? true opts.period w.now with
  | none => exact ⟨fun _ => rfl, fun _ => rfl⟩
  | some l => exact ⟨nofun, nofun⟩

theorem run?_eq_none (h : opts.resyncPeriodSecs = 0) (events : List Event) : opts.run? events = none := by
  rw [run?, launch?, (opts.start?_eq_none_iff true 0).2 h]
  rfl

theorem Fits.run?_eq (h : opts.Fits) (hperiod : opts.resyncPeriodSecs ≠ 0) (events : List Event) :
    opts.run? events = some ((Deployment.serve opts.config opts.period).run events) := by
  obtain ⟨l, hl⟩ := Option.ne_none_iff_exists'.1 (mt (opts.start?_eq_none_iff true 0).1 hperiod)
  rw [run?, launch?, hl, Option.map_some, Option.bind_some]
  exact Deployment.run?_eq h.maxRetries events

/-- Whatever options a command line gives, their numbers fit into their types, there is a worker at least, and the
service runs unless its period is zero. In every run the loop stays, no key has more failures than it may be tried
again, so that 32 bits always hold their count, and no timer runs longer than the longest wait. -/
theorem launch_safe {arguments : List String} (h : parse arguments = .ok opts) :
    opts.Fits ∧
      (Deployment.serve opts.config opts.period).workers.length = max opts.workers 1 ∧
      (∀ w : World, (w.start true opts.period).handle = .broken ↔ opts.resyncPeriodSecs = 0) ∧
      (∀ events, opts.run? events = none ↔ opts.resyncPeriodSecs = 0) ∧
      ∀ events d, opts.run? events = some d →
        d = (Deployment.serve opts.config opts.period).run events ∧ d.loop.isSome = true ∧
          (∀ k, d.service.queue.requeues k ≤ opts.maxRetries) ∧ d.Timely := by
  have hfits : opts.Fits := fits_of_parse h
  refine ⟨hfits, ?_, opts.handle_start_eq_broken_iff, fun events => ?_, fun events d hd => ?_⟩
  · rw [Deployment.serve, Deployment.boot, List.length_map, List.length_range]
    rfl
  · refine ⟨fun hnone => ?_, fun hzero => run?_eq_none hzero events⟩
    by_contra hperiod
    rw [hfits.run?_eq hperiod] at hnone
    cases hnone
  · have hperiod : opts.resyncPeriodSecs ≠ 0 := by
      intro hzero
      rw [run?_eq_none hzero] at hd
      cases hd
    rw [hfits.run?_eq hperiod] at hd
    obtain rfl := Option.some.inj hd
    refine ⟨rfl, ?_, fun k => ?_, Deployment.timely_run _ _ _ events⟩
    · exact Deployment.isSome_loop_run opts.config (Nat.mul_pos (Nat.pos_of_ne_zero hperiod) (by decide)) events
    · have hfrugal := Deployment.frugal_run opts.config (max opts.config.workers 1) (some opts.period) k events
      have hwithin := hfrugal.within
      rw [Deployment.config_run] at hwithin
      exact hwithin

/-- The least and the greatest values. -/
def extremes : List String :=
  ["--resync-period-secs", "18446744073709551615", "--workers", "0",
    "--queue-fast-delay-ms=18446744073709551615", "--queue-slow-delay-ms=0",
    "--queue-max-fast-attempts=4294967295", "--max-retries=4294967295"]

/-- A namespace comes up whose review fails. -/
def failing : List Event := Deployment.created ++ .deliver 0 :: List.replicate 8 (.work 0 Deployment.down)

theorem launch_safe_extremes :
    ∃ opts d, parse extremes = .ok opts ∧ opts.run? failing = some d ∧ d.loop.isSome = true ∧
      d.service.queue.delayed = [⟨Clock.longestWait, .ns "a"⟩] ∧
      d.service.queue.requeues (.ns "a") ≤ 4294967295 := by
  let opts : Options := {
    resyncPeriodSecs := 18446744073709551615
    workers := 0
    fastDelayMs := 18446744073709551615
    slowDelayMs := 0
    maxFastAttempts := 4294967295
    maxRetries := 4294967295 }
  have hparse : parse extremes = .ok opts := by decide +kernel
  obtain ⟨hfits, -, -, -, h⟩ := launch_safe hparse
  have hrun := hfits.run?_eq (by decide) failing
  obtain ⟨-, hloop, hrequeues, -⟩ := h failing _ hrun
  exact ⟨opts, _, hparse, hrun, hloop, by decide +kernel, hrequeues _⟩

/-- A period of zero is accepted, and the service does not run. -/
theorem not_launch_safe_of_zero :
    ¬ ∀ (arguments : List String) (opts : Options), parse arguments = .ok opts →
      ∀ events, ∃ d, opts.run? events = some d := by
  intro h
  obtain ⟨d, hd⟩ := h ["--resync-period-secs", "0"] { resyncPeriodSecs := 0 } (by decide +kernel) []
  cases hd

end Options

end Visibility
