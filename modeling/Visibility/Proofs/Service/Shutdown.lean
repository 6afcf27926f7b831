import Mathlib.Data.List.Perm.Subperm
import Visibility.Proofs.Queue.Waking
import Visibility.Proofs.Service.Traffic

namespace Visibility

/-- How far a worker is from its end if it gets no key any more. -/
def Worker.remaining (w : Worker) : Nat :=
  match w.phase with
  | .handle .. => 7
  | .settle .. => 6
  | .release _ => 5
  | .get g => g.remaining + 1
  | .done _ => 0

/-- Once the queue shut down, every step of a worker that neither makes a call nor takes a key brings it
closer to its end. -/
theorem Worker.remaining_step {w : Worker} {s : Service} (hproper : w.Proper)
    (hreached : w.getter.Reached s.queue.wake true w.ticket) (hshut : s.queue.shuttingDown = true)
    (hparked : s.queue.wake.parked = []) (htakes : w.takes? s.queue = none) (hcall : w.call? = none)
    (hleft : w.remaining ≠ 0) (config : Config) (now : Nat) (m : Moment) :
    (w.step config now m s).2.1.again.remaining < w.remaining := by
  obtain ⟨ticket, phase⟩ := w
  cases phase with
  | get g =>
      have hnone : ∀ k, (g.step ticket s.queue).2 ≠ .got k := by
        intro k hk
        obtain ⟨⟨round, rfl⟩, htake⟩ := Getter.step_eq_got hproper hk
        simp [takes?, htake] at htakes
      by_cases hclosed : g = .closed
      · subst hclosed
        exact Nat.zero_lt_one
      · have hopen : g.remaining ≠ 0 := by
          cases g with
          | got k => exact absurd rfl (hproper k)
          | closed => exact absurd rfl hclosed
          | _ => exact nofun
        have hlt : (g.step ticket s.queue).2.remaining < g.remaining :=
          (Getter.remaining_step hreached hshut hparked hnone hopen).1
        simp only [step]
        cases hstep : g.step ticket s.queue with
        | mk q g' =>
            rw [hstep] at hlt hnone
            cases g' with
            | got k => exact absurd rfl (hnone k)
            | closed => exact Nat.succ_pos _
            | _ => exact Nat.succ_lt_succ hlt
  | handle k call => cases hcall
  | settle k succeeded => exact Nat.lt_succ_self 5
  | release k => exact Nat.lt_add_of_pos_right (n := 3) (k := 2) Nat.two_pos
  | done more => exact absurd rfl hleft

theorem Worker.remaining_lt {v w : Worker} (hv : v.call? = none) (hw : w.call? ≠ none) :
    v.remaining < w.remaining := by
  obtain ⟨ticket, phase⟩ := w
  cases phase with
  | handle k call =>
      show v.remaining < 7
      obtain ⟨ticket, phase⟩ := v
      cases phase with
      | handle k call => cases hv
      | get g =>
          have hle := g.remaining_le
          show g.remaining + 1 < 7
          omega
      | _ => exact of_decide_eq_true rfl
  | _ => exact absurd rfl hw

theorem Worker.again_again (w : Worker) : w.again.again = w.again := by
  obtain ⟨ticket, phase⟩ := w
  cases phase with
  | done more => cases more <;> rfl
  | _ => rfl

/-- A loop that leaves only when the queue shut down, and stops only when the workers are done. -/
def Loop.Orderly (shut workersDone : Bool) (l : Loop) : Prop :=
  l.ofService = true ∧
    match l.phase with
    | .drain => shut = true
    | .stopped => shut = true ∧ workersDone = true
    | _ => True

theorem Loop.Orderly.shut {shut workersDone : Bool} {l : Loop} (h : l.Orderly shut workersDone)
    (hphase : l.phase = .drain ∨ l.phase = .stopped) : shut = true := by
  obtain ⟨-, hshut⟩ := h
  rcases hphase with hdrain | hstopped
  · rw [hdrain] at hshut
    exact hshut
  · rw [hstopped] at hshut
    exact hshut.1

theorem Loop.orderly_step {now : Nat} {stop workersDone : Bool} {pick : Cue} {m : Moment} {s : Service}
    {l : Loop} (h : l.Orderly s.queue.shuttingDown workersDone) :
    (l.step now stop workersDone pick m s).2.1.Orderly
      (l.step now stop workersDone pick m s).1.queue.shuttingDown workersDone := by
  obtain ⟨ofService, ticker, phase⟩ := l
  obtain ⟨hof, hphase⟩ := h
  cases phase with
  | wait =>
      simp only [step]
      split
      · rw [if_pos hof]
        exact ⟨hof, rfl⟩
      · exact ⟨hof, trivial⟩
      · exact ⟨hof, trivial⟩
  | pass p =>
      refine ⟨hof, ?_⟩
      simp only [step]
      cases (p.step m s.cache).next <;> exact trivial
  | drain =>
      simp only [step]
      split
      · rename_i hdone
        exact ⟨hof, hphase, hdone⟩
      · exact ⟨hof, hphase⟩
  | stopped => exact ⟨hof, hphase⟩

namespace Deployment

variable {d d' : Deployment}

/-- A service with its loop, and with at least one worker. -/
def serve (config : Config) (period : Nat) : Deployment :=
  boot config (max config.workers 1) (some period)

/-- The loop of the service has stopped. -/
def Returned (d : Deployment) : Prop := ∃ l, d.loop = some l ∧ l.phase = .stopped

instance (d : Deployment) : Decidable d.Returned :=
  decidable_of_iff ((d.loop.any fun l => match l.phase with | .stopped => true | _ => false) = true) <| by
    rw [Option.any_eq_true]
    refine exists_congr fun l => and_congr_right fun _ => ?_
    cases l.phase with
    | stopped => exact ⟨fun _ => rfl, fun _ => rfl⟩
    | _ => exact ⟨nofun, nofun⟩

theorem loop_next (d : Deployment) (e : Event) :
    (d.next e).loop = d.loop ∨
      ∃ pick m l, e = .loop pick m ∧ d.loop = some l ∧
        (d.next e).loop =
          some (l.step d.clock d.stopping d.workersDone pick (d.moment m) d.service).2.1 := by
  cases e with
  | deliver i =>
      simp only [next, act]
      cases d.publications[i]? <;> exact .inl rfl
  | work i m =>
      simp only [next, act]
      cases d.workers[i]? with
      | none => exact .inl rfl
      | some w => exact .inl (d.loop_note (.worker i))
  | loop pick m =>
      simp only [next, act]
      cases hl : d.loop with
      | none => exact .inl hl
      | some l => exact .inr ⟨pick, m, l, rfl, rfl, rfl⟩
  | expire x =>
      simp only [next, act]
      split <;> exact .inl rfl
  | _ => exact .inl rfl

theorem isSome_loop_next (e : Event) (h : d.loop.isSome = true) : (d.next e).loop.isSome = true := by
  rcases d.loop_next e with hsame | ⟨pick, m, l, -, -, hnext⟩
  · rw [hsame]
    exact h
  · rw [hnext]
    rfl

theorem isSome_loop_run (config : Config) {period : Nat} (hperiod : 0 < period) (events : List Event) :
    ((serve config period).run events).loop.isSome = true := by
  induction events using List.reverseRecOn with
  | nil =>
      have hticker : Ticker.start? period 0 = some ⟨period, 0⟩ := if_neg (Nat.ne_of_gt hperiod)
      simp [serve, boot, run, Loop.start?, hticker]
  | append_singleton events e ih =>
      rw [run, List.foldl_concat]
      exact isSome_loop_next e ih

theorem workersDone_iff : d.workersDone = true ↔ ∀ w ∈ d.workers, w.remaining = 0 := by
  rw [workersDone, List.all_eq_true]
  refine forall₂_congr fun w _ => ?_
  obtain ⟨ticket, phase⟩ := w
  cases phase with
  | done more => exact ⟨fun _ => rfl, fun _ => rfl⟩
  | _ => exact ⟨nofun, nofun⟩

/-- A deployment whose workers have not ended before they were told to, and whose loop is orderly. -/
structure Winding (d : Deployment) : Prop where
  seated : d.Seated
  again : ∀ w ∈ d.workers, w.again = w
  loop : ∀ l, d.loop = some l → l.Orderly d.service.queue.shuttingDown d.workersDone

theorem Seated.shuttingDown_next (h : d.Seated) (e : Event)
    (hshut : d.service.queue.shuttingDown = true) :
    (d.next e).service.queue.shuttingDown = true := by
  rw [h.queue_next e]
  cases d.dealing? e with
  | none => exact hshut
  | some deal => exact (d.traffic.move deal).shuttingDown hshut

theorem Seated.open_of_run (h : d.Seated) {a b : List Event}
    (hopen : (d.run (a ++ b)).service.queue.shuttingDown = false) :
    (d.run a).service.queue.shuttingDown = false := by
  rw [run_append] at hopen
  replace h := h.run a
  generalize d.run a = d at h hopen
  by_contra hshut
  rw [Bool.not_eq_false] at hshut
  induction b generalizing d with
  | nil =>
      rw [show d.run [] = d from rfl, hshut] at hopen
      cases hopen
  | cons e b ih => exact ih (d.next e) (h.next e) hopen (h.shuttingDown_next e hshut)

theorem Winding.getElem?_next (h : d.Winding) (e : Event) {i : Nat} {w : Worker}
    (hi : d.workers[i]? = some w) (hdone : w.remaining = 0) : (d.next e).workers[i]? = some w := by
  rcases d.getElem?_workers_next e i with hsame | ⟨m, v, -, hv, hnext⟩
  · exact hsame.trans hi
  · obtain rfl := Option.some.inj (hi.symm.trans hv)
    have hagain := h.again w (List.mem_of_getElem? hi)
    rw [hnext]
    obtain ⟨ticket, phase⟩ := w
    cases phase with
    | done more => exact congrArg some hagain
    | get g => cases g <;> cases hdone
    | _ => cases hdone

theorem Winding.workersDone_next (h : d.Winding) (e : Event) (hdone : d.workersDone = true) :
    (d.next e).workersDone = true := by
  rw [workersDone_iff] at hdone ⊢
  intro v hv
  obtain ⟨i, hi⟩ := List.getElem?_of_mem hv
  rcases d.getElem?_workers_next e i with hsame | ⟨m, w, -, hw, -⟩
  · exact hdone v (List.mem_of_getElem? (hsame.symm.trans hi))
  · have hzero := hdone w (List.mem_of_getElem? hw)
    obtain rfl := Option.some.inj ((h.getElem?_next e hw hzero).symm.trans hi)
    exact hzero

theorem Winding.next (h : d.Winding) (e : Event) : (d.next e).Winding := by
  refine ⟨h.seated.next e, ?_, ?_⟩
  · intro v hv
    obtain ⟨i, hi⟩ := List.getElem?_of_mem hv
    rcases d.getElem?_workers_next e i with hsame | ⟨m, w, -, hw, hnext⟩
    · exact h.again v (List.mem_of_getElem? (hsame.symm.trans hi))
    · obtain rfl := Option.some.inj (hnext.symm.trans hi)
      exact Worker.again_again _
  · intro l hl
    have hmono : ∀ l : Loop, l.Orderly d.service.queue.shuttingDown d.workersDone →
        l.Orderly (d.next e).service.queue.shuttingDown (d.next e).workersDone := by
      rintro ⟨ofService, ticker, phase⟩ ⟨hof, hphase⟩
      refine ⟨hof, ?_⟩
      cases phase with
      | drain => exact h.seated.shuttingDown_next e hphase
      | stopped =>
          exact ⟨h.seated.shuttingDown_next e hphase.1, h.workersDone_next e hphase.2⟩
      | _ => exact trivial
    rcases d.loop_next e with hsame | ⟨pick, m, k, rfl, hk, hnext⟩
    · exact hmono l (h.loop l (hsame.symm.trans hl))
    · obtain rfl := Option.some.inj (hnext.symm.trans hl)
      have hservice : (d.next (.loop pick m)).service =
          (k.step d.clock d.stopping d.workersDone pick (d.moment m) d.service).1 := by
        simp only [Deployment.next, act, hk, Option.elim_some]
        rfl
      have hworkers : (d.next (.loop pick m)).workersDone = d.workersDone := by
        simp only [Deployment.next, act, hk, Option.elim_some, workersDone]
        exact congrArg (List.all · _) (d.workers_note .loop)
      rw [hservice, hworkers]
      exact Loop.orderly_step (h.loop k hk)

theorem winding_run (config : Config) (period : Nat) (events : List Event) :
    ((serve config period).run events).Winding := by
  induction events using List.reverseRecOn with
  | nil =>
      refine ⟨seated_boot _ _ _, ?_, ?_⟩
      · intro w hw
        obtain ⟨i, -, rfl⟩ := List.mem_map.1 hw
        rfl
      · intro l hl
        obtain ⟨ticker, -, rfl⟩ := Option.map_eq_some_iff.1 hl
        exact ⟨rfl, trivial⟩
  | append_singleton events e ih =>
      rw [run, List.foldl_concat]
      exact ih.next e

theorem attended_run (config : Config) (period : Nat) (events : List Event) :
    ((serve config period).run events).traffic.Attended := by
  obtain ⟨deals, hrun, -⟩ := exists_traffic_run config (max config.workers 1) (some period) events
  rw [serve, hrun]
  exact Traffic.attended_run config.limiter (Nat.le_max_right _ _) deals

theorem roused_run (config : Config) (period : Nat) (events : List Event) :
    ((serve config period).run events).traffic.Roused := by
  obtain ⟨deals, hrun, -⟩ := exists_traffic_run config (max config.workers 1) (some period) events
  rw [serve, hrun]
  exact Traffic.roused_run config.limiter _ deals

theorem getter_of_remaining {w : Worker} (hagain : w.again = w) (hdone : w.remaining = 0) :
    w.getter = .closed := by
  obtain ⟨ticket, phase⟩ := w
  cases phase with
  | done more =>
      cases more with
      | true => cases hagain
      | false => rfl
  | get g => cases g <;> cases hdone
  | _ => cases hdone

theorem Winding.drained (h : d.Winding) {log : List (Entry ChangeKey)} (hbooks : d.traffic.Books log)
    (hattended : d.traffic.Attended) (hdone : d.workersDone = true) :
    d.service.queue.waiting = [] ∧ d.service.queue.dirty = [] ∧ d.service.queue.processing = [] := by
  rw [workersDone_iff] at hdone
  have hclosed : ∀ g ∈ d.traffic.getters, g = .closed := by
    intro g hg
    obtain ⟨w, hw, rfl⟩ := List.mem_map.1 hg
    exact getter_of_remaining (h.again w hw) (hdone w hw)
  have hwaiting : d.service.queue.waiting = [] := by
    by_contra hne
    obtain ⟨g, hg, hopen⟩ := hattended.waiting hne
    exact hopen (hclosed g hg)
  have hprocessing : d.service.queue.processing = [] := by
    refine List.eq_nil_iff_forall_not_mem.2 fun k hk => ?_
    obtain ⟨i, hi⟩ := hbooks.owned k hk
    obtain ⟨g, hg, hkey⟩ := Option.bind_eq_some_iff.1 hi
    rw [hclosed g (List.mem_of_getElem? hg)] at hkey
    cases hkey
  refine ⟨hwaiting, ?_, hprocessing⟩
  refine List.eq_nil_iff_forall_not_mem.2 fun k hk => ?_
  rcases hbooks.lent.coherent.placed k hk with hin | hin
  · exact absurd (hwaiting ▸ hin) List.not_mem_nil
  · exact absurd (hprocessing ▸ hin) List.not_mem_nil

theorem Returned.next (h : d.Returned) (e : Event) : (d.next e).Returned := by
  obtain ⟨l, hl, hstopped⟩ := h
  rcases d.loop_next e with hsame | ⟨pick, m, k, -, hk, hnext⟩
  · exact ⟨l, hsame.trans hl, hstopped⟩
  · obtain rfl := Option.some.inj (hl.symm.trans hk)
    refine ⟨_, hnext, ?_⟩
    simp only [Loop.step, hstopped]

theorem Returned.run (h : d.Returned) (events : List Event) : (d.run events).Returned := by
  induction events generalizing d with
  | nil => exact h
  | cons e events ih => exact ih (h.next e)

theorem Returned.call?_eq_none (h : d.Returned) (hwinding : d.Winding) (r : Runner) : d.call? r = none := by
  obtain ⟨l, hl, hstopped⟩ := h
  cases r with
  | worker i =>
      obtain ⟨-, horderly⟩ := hwinding.loop l hl
      rw [hstopped] at horderly
      have hdone := workersDone_iff.1 horderly.2
      rw [call?, Option.bind_eq_none_iff]
      intro w hi
      have hzero := hdone w (List.mem_of_getElem? hi)
      obtain ⟨ticket, phase⟩ := w
      cases phase with
      | handle k call => cases hzero
      | _ => rfl
  | loop =>
      rw [call?, hl, Option.bind_some, Loop.call?, hstopped]

/-- What a deployment comes to on a schedule. -/
def trace (d : Deployment) (schedule : Nat → Event) : Nat → Deployment
  | 0 => d
  | n + 1 => (d.trace schedule n).next (schedule n)

/-- A schedule on which every worker and the loop get their steps again and again, and every call
returns. -/
structure Fair (d : Deployment) (schedule : Nat → Event) : Prop where
  worker : ∀ i < d.workers.length, ∀ n, ∃ n' ≥ n, ∃ m, schedule n' = .work i m
  loop : ∀ n, ∃ n' ≥ n, ∃ pick m, schedule n' = .loop pick m
  returns : ∀ r n, (d.trace schedule n).call? r ≠ none →
    ∃ n' ≥ n, (d.trace schedule n').call? r = none

/-- The loop waits, is told to stop, and has a tick that is due. -/
def Torn (d : Deployment) : Prop :=
  d.stopping = true ∧ ∃ l, d.loop = some l ∧ l.phase = .wait ∧ l.ticker.due ≤ d.clock

/-- A fair schedule on which the loop, if it has to choose between a tick and the signal again and again, takes the
signal at some time. -/
structure Heedful (d : Deployment) (schedule : Nat → Event) : Prop extends d.Fair schedule where
  signal : (∀ n, ∃ n' ≥ n, (d.trace schedule n').Torn ∧ ∃ pick m, schedule n' = .loop pick m) →
    ∃ n, (d.trace schedule n).Torn ∧ ∃ m, schedule n = .loop .signal m

variable {schedule : Nat → Event} {n n' : Nat}

theorem trace_eq_run (d : Deployment) (schedule : Nat → Event) (n : Nat) :
    d.trace schedule n = d.run ((List.range n).map schedule) := by
  induction n with
  | zero => rfl
  | succ n ih =>
      rw [trace, ih, List.range_succ, List.map_append, run, run, List.map_singleton,
        List.foldl_concat]

theorem stays {P : Deployment → Prop}
    (hstays : ∀ n, P (d.trace schedule n) → P (d.trace schedule (n + 1))) (hle : n ≤ n')
    (h : P (d.trace schedule n)) : P (d.trace schedule n') := by
  induction hle with
  | refl => exact h
  | step _ ih => exact hstays _ ih

/-- What only a certain event can change is still so when that event happens. -/
theorem stays_until {P : Deployment → Prop} {E : Event → Prop}
    (hstays : ∀ n, P (d.trace schedule n) → ¬ E (schedule n) → P (d.trace schedule (n + 1)))
    (h : P (d.trace schedule n)) (hle : n ≤ n') (hlast : E (schedule n')) :
    ∃ l ≥ n, E (schedule l) ∧ P (d.trace schedule l) := by
  obtain ⟨k, rfl⟩ := Nat.exists_eq_add_of_le hle
  clear hle
  induction k generalizing n with
  | zero => exact ⟨n, Nat.le_refl _, hlast, h⟩
  | succ k ih =>
      by_cases hnow : E (schedule n)
      · exact ⟨n, Nat.le_refl _, hnow, h⟩
      · rw [← Nat.add_assoc, Nat.add_right_comm] at hlast
        obtain ⟨l, hl, hresult⟩ := ih (hstays n h hnow) hlast
        exact ⟨l, Nat.le_of_succ_le hl, hresult⟩

/-- All that holds of a deployment in every run of a service. -/
structure Sane (d : Deployment) : Prop where
  winding : d.Winding
  proper : ∀ w ∈ d.workers, w.Proper
  attended : d.traffic.Attended
  roused : d.traffic.Roused
  books : ∃ log, d.traffic.Books log

theorem sane_run (config : Config) (period : Nat) (events : List Event) :
    ((serve config period).run events).Sane := by
  have hcustody := custody_run config (max config.workers 1) (some period) events
  exact ⟨winding_run config period events, hcustody.proper, attended_run config period events,
    roused_run config period events, ⟨_, books_run config (max config.workers 1) (some period) events⟩⟩

/-- Once the queue shuts down, an event hands out a key that was dirty, or makes no entry. -/
theorem Sane.dirty_next (h : d.Sane) (hshut : d.service.queue.shuttingDown = true) (e : Event) :
    d.logs? e = none ∧ (d.next e).service.queue.dirty = d.service.queue.dirty ∨
      (d.next e).service.queue.dirty.length < d.service.queue.dirty.length := by
  obtain ⟨log, hbooks⟩ := h.books
  have hnext := h.winding.seated.traffic_next e
  have hdirty : (d.next e).service.queue.dirty = (d.next e).traffic.queue.dirty := rfl
  rw [hdirty, hnext, logs?]
  cases d.dealing? e with
  | none => exact .inl ⟨rfl, rfl⟩
  | some deal =>
      rcases (d.traffic.move deal).of_shuttingDown hbooks.lent.coherent hshut with hsame |
        ⟨k, hk, -, hfilter⟩
      · exact .inl hsame
      · refine .inr ?_
        show (d.traffic.next deal).queue.dirty.length < _
        rw [hfilter]
        exact List.length_filter_lt_length_iff_exists.2 ⟨k, hk, by simp⟩

theorem exists_quiet (hsane : ∀ n, (d.trace schedule n).Sane)
    (hshut : (d.trace schedule n).service.queue.shuttingDown = true) :
    ∃ n' ≥ n, ∀ l ≥ n', (d.trace schedule l).logs? (schedule l) = none := by
  -- by induction on the keys that are dirty, each of which is handed out at most once
  induction hv : (d.trace schedule n).service.queue.dirty.length using Nat.strongRecOn
    generalizing n with
  | ind v ih =>
      subst hv
      have hdown : ∀ l ≥ n, (d.trace schedule l).service.queue.shuttingDown = true := fun l hl =>
        stays (P := fun d => d.service.queue.shuttingDown = true)
          (fun l => (hsane l).winding.seated.shuttingDown_next (schedule l)) hl hshut
      by_cases hquiet : ∀ l ≥ n, (d.trace schedule l).logs? (schedule l) = none
      · exact ⟨n, Nat.le_refl _, hquiet⟩
      · simp only [not_forall] at hquiet
        obtain ⟨l, hl, hentry⟩ := hquiet
        have hle : ∀ j ≥ n, (d.trace schedule j).service.queue.dirty.length ≤
            (d.trace schedule n).service.queue.dirty.length := by
          intro j hj
          induction hj with
          | refl => exact Nat.le_refl _
          | @step j hj ihj =>
              rcases (hsane j).dirty_next (hdown j hj) (schedule j) with ⟨-, hsame⟩ | hlt
              · exact Nat.le_trans (Nat.le_of_eq (congrArg List.length hsame)) ihj
              · exact Nat.le_trans (Nat.le_of_lt hlt) ihj
        have hlt : (d.trace schedule (l + 1)).service.queue.dirty.length <
            (d.trace schedule n).service.queue.dirty.length := by
          rcases (hsane l).dirty_next (hdown l hl) (schedule l) with ⟨hnone, -⟩ | hlt
          · exact absurd hnone hentry
          · exact Nat.lt_of_lt_of_le hlt (hle l hl)
        obtain ⟨n', hn', hresult⟩ := ih _ hlt (hdown (l + 1) (Nat.le_succ_of_le hl)) rfl
        exact ⟨n', by omega, hresult⟩

theorem length_workers_trace (d : Deployment) (schedule : Nat → Event) (n : Nat) :
    (d.trace schedule n).workers.length = d.workers.length :=
  stays (P := fun d' => d'.workers.length = d.workers.length)
    (fun l hl => (continues_next _ (schedule l)).workers.trans hl) (Nat.zero_le n) rfl

theorem exists_step_worker (hfair : d.Fair schedule) {i : Nat} {w : Worker}
    (hi : (d.trace schedule n).workers[i]? = some w) :
    ∃ n' ≥ n, ∃ m, schedule n' = .work i m ∧ (d.trace schedule n').workers[i]? = some w := by
  obtain ⟨hlt, -⟩ := List.getElem?_eq_some_iff.1 hi
  obtain ⟨n', hn', hwork⟩ := hfair.worker i (d.length_workers_trace schedule n ▸ hlt) n
  obtain ⟨l, hl, ⟨m, hm⟩, hw⟩ := stays_until (P := fun d => d.workers[i]? = some w)
    (E := fun e => ∃ m, e = .work i m) (fun l hl hother => by
      rcases (d.trace schedule l).getElem?_workers_next (schedule l) i with hsame | ⟨m, -, hm, -⟩
      · exact hsame.trans hl
      · exact absurd ⟨m, hm⟩ hother) hi hn' hwork
  exact ⟨l, hl, m, hm, hw⟩

theorem exists_step_loop (hfair : d.Fair schedule) {l : Loop}
    (hl : (d.trace schedule n).loop = some l) :
    ∃ n' ≥ n, ∃ pick m, schedule n' = .loop pick m ∧ (d.trace schedule n').loop = some l := by
  obtain ⟨n', hn', hloop⟩ := hfair.loop n
  obtain ⟨k, hk, ⟨pick, m, hm⟩, hsame⟩ := stays_until (P := fun d => d.loop = some l)
    (E := fun e => ∃ pick m, e = .loop pick m) (fun k hk hother => by
      rcases (d.trace schedule k).loop_next (schedule k) with hsame | ⟨pick, m, -, hm, -⟩
      · exact hsame.trans hk
      · exact absurd ⟨pick, m, hm⟩ hother) hl hn' hloop
  exact ⟨k, hk, pick, m, hm, hsame⟩

theorem exists_worker_done (hfair : d.Fair schedule) (hsane : ∀ n, (d.trace schedule n).Sane)
    (hshut : ∀ l ≥ n, (d.trace schedule l).service.queue.shuttingDown = true)
    (hquiet : ∀ l ≥ n, (d.trace schedule l).logs? (schedule l) = none) {i : Nat} {w : Worker}
    (hle : n ≤ n') (hi : (d.trace schedule n').workers[i]? = some w) :
    ∃ l ≥ n', ∃ v, (d.trace schedule l).workers[i]? = some v ∧ v.remaining = 0 := by
  -- by induction on how far the worker is from its end: its own step or the return of its call brings
  -- it closer, and nobody else moves it
  induction hv : w.remaining using Nat.strongRecOn generalizing n' w with
  | ind v ih =>
      subst hv
      by_cases hleft : w.remaining = 0
      · exact ⟨n', Nat.le_refl _, w, hi, hleft⟩
      by_cases hcall : w.call? = none
      · obtain ⟨l, hl, m, hm, hw⟩ := exists_step_worker hfair hi
        have hln : n ≤ l := Nat.le_trans hle hl
        have hstep := getElem?_workers_work hw m
        rw [← hm] at hstep
        have hsanel := hsane l
        have hshutl := hshut l hln
        have hseat := hsanel.winding.seated i w hw
        have hreached := hsanel.roused.reached i w.getter (getElem?_getters hw)
        have htakes := hsanel.winding.seated.takes?_eq_none hw (hm ▸ hquiet l hln)
        have hlt := Worker.remaining_step (hsanel.proper w (List.mem_of_getElem? hw))
          (by rw [hseat]; exact hshutl ▸ hreached) hshutl (hsanel.roused.parked hshutl) htakes hcall hleft
          (d.trace schedule l).config (d.trace schedule l).clock ((d.trace schedule l).moment m)
        obtain ⟨k, hk, hresult⟩ := ih _ hlt (Nat.le_succ_of_le hln) hstep rfl
        exact ⟨k, by omega, hresult⟩
      · have hbefore : (d.trace schedule n').call? (.worker i) = w.call? := by
          rw [call?, hi, Option.bind_some]
        obtain ⟨l, hl, hnone⟩ := hfair.returns (.worker i) n' (hbefore ▸ hcall)
        have hlt : i < (d.trace schedule l).workers.length := by
          rw [length_workers_trace, ← d.length_workers_trace schedule n']
          exact (List.getElem?_eq_some_iff.1 hi).1
        have hv := List.getElem?_eq_getElem hlt
        rw [call?, hv, Option.bind_some] at hnone
        obtain ⟨k, hk, hresult⟩ := ih _ (Worker.remaining_lt hnone hcall) (Nat.le_trans hle hl) hv rfl
        exact ⟨k, Nat.le_trans hl hk, hresult⟩

theorem exists_workersDone (hfair : d.Fair schedule) (hsane : ∀ n, (d.trace schedule n).Sane)
    (hshut : (d.trace schedule n).service.queue.shuttingDown = true) :
    ∃ n' ≥ n, (d.trace schedule n').workersDone = true := by
  obtain ⟨n₀, hn₀, hquiet⟩ := exists_quiet hsane hshut
  have hdown : ∀ l ≥ n₀, (d.trace schedule l).service.queue.shuttingDown = true := fun l hl =>
    stays (P := fun d => d.service.queue.shuttingDown = true)
      (fun l => (hsane l).winding.seated.shuttingDown_next (schedule l)) (Nat.le_trans hn₀ hl) hshut
  -- one worker after the other, as those that are done stay done
  have hfirst : ∀ j ≤ d.workers.length, ∃ n' ≥ n₀, ∀ i < j, ∃ w,
      (d.trace schedule n').workers[i]? = some w ∧ w.remaining = 0 := by
    intro j hj
    induction j with
    | zero => exact ⟨n₀, Nat.le_refl _, nofun⟩
    | succ j ih =>
        obtain ⟨n', hn', hdone⟩ := ih (Nat.le_of_succ_le hj)
        have hlt : j < (d.trace schedule n').workers.length := by
          rw [length_workers_trace]
          exact hj
        obtain ⟨l, hl, v, hv, hzero⟩ := exists_worker_done hfair hsane hdown hquiet hn'
          (List.getElem?_eq_getElem hlt)
        refine ⟨l, Nat.le_trans hn' hl, fun i hi => ?_⟩
        rcases Nat.lt_succ_iff_lt_or_eq.1 hi with hi | rfl
        · obtain ⟨w, hw, hz⟩ := hdone i hi
          exact ⟨w, stays (P := fun d => d.workers[i]? = some w)
            (fun l hl => (hsane l).winding.getElem?_next (schedule l) hl hz) hl hw, hz⟩
        · exact ⟨v, hv, hzero⟩
  obtain ⟨n', hn', hdone⟩ := hfirst d.workers.length (Nat.le_refl _)
  refine ⟨n', Nat.le_trans hn₀ hn', ?_⟩
  rw [workersDone_iff]
  intro v hv
  obtain ⟨i, hi⟩ := List.getElem?_of_mem hv
  have hlt : i < d.workers.length := by
    rw [← d.length_workers_trace schedule n']
    exact (List.getElem?_eq_some_iff.1 hi).1
  obtain ⟨w, hw, hzero⟩ := hdone i hlt
  obtain rfl := Option.some.inj (hw.symm.trans hi)
  exact hzero

/-- The loop waits for the workers, or has stopped. -/
def Leaving (d : Deployment) : Prop :=
  ∃ l, d.loop = some l ∧ (l.phase = .drain ∨ l.phase = .stopped)

theorem loop_work {l : Loop} (hl : d.loop = some l) (pick : Loop.Cue) (m : Moment) :
    (d.next (.loop pick m)).loop =
      some (l.step d.clock d.stopping d.workersDone pick (d.moment m) d.service).2.1 := by
  simp only [next, act, hl]
  rfl

theorem Leaving.next (h : d.Leaving) (e : Event) : (d.next e).Leaving := by
  obtain ⟨l, hl, hphase⟩ := h
  rcases d.loop_next e with hsame | ⟨pick, m, k, -, hk, hnext⟩
  · exact ⟨l, hsame.trans hl, hphase⟩
  · obtain rfl := Option.some.inj (hl.symm.trans hk)
    refine ⟨_, hnext, ?_⟩
    rcases hphase with hdrain | hstopped
    · simp only [Loop.step, hdrain]
      split
      · exact .inr rfl
      · exact .inl hdrain
    · simp only [Loop.step, hstopped]
      exact .inr trivial

theorem leaving_of_signal (hwinding : d.Winding) {l : Loop} (hl : d.loop = some l) (hwait : l.phase = .wait)
    (hstop : d.stopping = true) {pick : Loop.Cue} (hpick : l.ticker.due ≤ d.clock → pick = .signal) (m : Moment) :
    (d.next (.loop pick m)).Leaving := by
  have hof : l.ofService = true := (hwinding.loop l hl).1
  have hcue : l.cue? d.clock true pick = some .signal := Loop.cue?_eq_signal hpick
  refine ⟨_, loop_work hl pick m, .inl ?_⟩
  simp only [Loop.step, hwait, hstop, hcue, hof, if_true]

theorem exists_wait (hfair : d.Fair schedule) (hloops : ∀ n, (d.trace schedule n).loop.isSome = true)
    (hstays : ∀ n, ¬ (d.trace schedule n).Leaving) (n : Nat) :
    ∃ n' ≥ n, ∃ pick m l, schedule n' = .loop pick m ∧ (d.trace schedule n').loop = some l ∧ l.phase = .wait := by
  have hidle : ∃ n' ≥ n, (d.trace schedule n').call? .loop = none := by
    by_cases hnone : (d.trace schedule n).call? .loop = none
    · exact ⟨n, Nat.le_refl n, hnone⟩
    · exact hfair.returns .loop n hnone
  obtain ⟨n', hn', hidle⟩ := hidle
  obtain ⟨l, hl⟩ := Option.isSome_iff_exists.1 (hloops n')
  rw [call?, hl, Option.bind_some] at hidle
  have hwait : l.phase = .wait := by
    cases hphase : l.phase with
    | wait => rfl
    | pass p => simp [Loop.call?, hphase] at hidle
    | drain => exact absurd ⟨l, hl, .inl hphase⟩ (hstays n')
    | stopped => exact absurd ⟨l, hl, .inr hphase⟩ (hstays n')
  obtain ⟨k, hk, pick, m, hm, hsame⟩ := exists_step_loop hfair hl
  exact ⟨k, Nat.le_trans hn' hk, pick, m, l, hm, hsame, hwait⟩

theorem exists_leaving (hheedful : d.Heedful schedule) (hsane : ∀ n, (d.trace schedule n).Sane)
    (hloop : d.loop.isSome = true) (hstop : d.stopping = true) :
    ∃ n, (d.trace schedule n).Leaving := by
  have hloops : ∀ n, (d.trace schedule n).loop.isSome = true := fun n =>
    stays (P := fun d => d.loop.isSome = true) (fun n => isSome_loop_next (schedule n))
      (Nat.zero_le n) hloop
  have hstops : ∀ n, (d.trace schedule n).stopping = true := fun n =>
    stays (P := fun d => d.stopping = true)
      (fun n => (continues_next _ (schedule n)).stopping) (Nat.zero_le n) hstop
  by_contra hnever
  rw [not_exists] at hnever
  -- without a tick that is due it would leave, so it has to choose whenever it makes a step of its wait
  have htorn : ∀ n, ∃ n' ≥ n, (d.trace schedule n').Torn ∧ ∃ pick m, schedule n' = .loop pick m := by
    intro n
    obtain ⟨n', hn', pick, m, l, hm, hl, hwait⟩ := exists_wait hheedful.toFair hloops hnever n
    refine ⟨n', hn', ⟨hstops n', l, hl, hwait, ?_⟩, pick, m, hm⟩
    by_contra hdue
    have hleaving : ((d.trace schedule n').next (.loop pick m)).Leaving :=
      leaving_of_signal (hsane n').winding hl hwait (hstops n') (fun h => absurd h hdue) m
    rw [← hm] at hleaving
    exact hnever (n' + 1) hleaving
  obtain ⟨n, ⟨-, l, hl, hwait, -⟩, m, hm⟩ := hheedful.signal htorn
  have hleaving := leaving_of_signal (hsane n).winding hl hwait (hstops n) (fun _ => rfl) m
  rw [← hm] at hleaving
  exact hnever (n + 1) hleaving

theorem exists_returned (hheedful : d.Heedful schedule) (hsane : ∀ n, (d.trace schedule n).Sane)
    (hloop : d.loop.isSome = true) (hstop : d.stopping = true) :
    ∃ n, (d.trace schedule n).Returned := by
  obtain ⟨n, hleaving⟩ := exists_leaving hheedful hsane hloop hstop
  have hshut : (d.trace schedule n).service.queue.shuttingDown = true := by
    obtain ⟨l, hl, hphase⟩ := hleaving
    exact ((hsane n).winding.loop l hl).shut hphase
  obtain ⟨n', hn', hdone⟩ := exists_workersDone hheedful.toFair hsane hshut
  obtain ⟨l, hl, hphase⟩ := stays (fun l hl => Leaving.next hl (schedule l)) hn' hleaving
  rcases hphase with hdrain | hstopped
  · obtain ⟨k, hk, pick, m, hm, hsame⟩ := exists_step_loop hheedful.toFair hl
    have hdone' := stays (P := fun d => d.workersDone = true)
      (fun l => (hsane l).winding.workersDone_next (schedule l)) hk hdone
    have hstep := loop_work hsame pick m
    rw [← hm] at hstep
    refine ⟨k + 1, _, hstep, ?_⟩
    simp only [Loop.step, hdrain, hdone', if_true]
  · exact ⟨n', l, hl, hstopped⟩

theorem heedful_of_returned (hwinding : ∀ n, (d.trace schedule n).Winding)
    (hworker : ∀ i < d.workers.length, ∀ n, ∃ n' ≥ n, ∃ m, schedule n' = .work i m)
    (hloop : ∀ n, ∃ n' ≥ n, ∃ pick m, schedule n' = .loop pick m)
    (hreturned : (d.trace schedule n).Returned) : d.Heedful schedule := by
  have hlate : ∀ k, (d.trace schedule (max k n)).Returned := fun k =>
    stays (fun l hl => Returned.next hl (schedule l)) (Nat.le_max_right k n) hreturned
  refine ⟨⟨hworker, hloop, fun r k _ => ?_⟩, fun htorn => ?_⟩
  · exact ⟨max k n, Nat.le_max_left k n, (hlate k).call?_eq_none (hwinding _) r⟩
  · obtain ⟨k, hk, ⟨-, l, hl, hwait, -⟩, -⟩ := htorn n
    obtain ⟨l', hl', hstopped⟩ := hlate k
    rw [Nat.max_eq_left hk] at hl'
    obtain rfl := Option.some.inj (hl.symm.trans hl')
    cases hwait.symm.trans hstopped

/-- However many workers there are and whenever the service is told to stop: from the shutdown of the queue
on, only keys that were dirty then are handed out, each one once. When the service has returned, its workers
are done, the queue has no keys, every key was handed out after it was last accepted, and nothing that comes
later has an effect on the queue. And it does return, if all get their steps, every call returns and the loop
does not take ticks for ever in place of the signal. -/
theorem shutdown_drains (config : Config) {period : Nat} (hperiod : 0 < period)
    (events : List Event) :
    let start := serve config period
    let d := start.run events
    let q := d.service.queue
    (q.shuttingDown = true → ∀ later, ∃ keys : List ChangeKey,
        d.log later = keys.map .handed ∧ keys.Nodup ∧ (∀ k ∈ keys, k ∈ q.dirty) ∧
          keys.length ≤ q.dirty.length) ∧
      (d.Returned → d.workersDone = true ∧ q.shuttingDown = true ∧
        q.waiting = [] ∧ q.dirty = [] ∧ q.processing = [] ∧
        (∀ k, .accepted k ∈ start.log events →
          Entry.latest? (start.log events) k = some (.handed k)) ∧
        ∀ later, (d.run later).Returned ∧ d.log later = []) ∧
      (d.stopping = true → ∀ schedule, d.Heedful schedule → ∃ n, (d.trace schedule n).Returned) := by
  intro start d q
  have hsane : d.Sane := sane_run config period events
  have hbooks : d.traffic.Books (start.log events) :=
    books_run config (max config.workers 1) (some period) events
  have hlater : q.shuttingDown = true → ∀ later, ∃ keys : List ChangeKey,
      d.log later = keys.map .handed ∧ keys.Nodup ∧ (∀ k ∈ keys, k ∈ q.dirty) ∧
        keys.length ≤ q.dirty.length := by
    intro hshut later
    obtain ⟨-, hlog⟩ := hsane.winding.seated.traffic_run later
    obtain ⟨keys, hkeys, hnodup, hmem⟩ := hbooks.log_of_shuttingDown hshut (d.dealings later)
    exact ⟨keys, hlog.trans hkeys, hnodup, hmem, (hnodup.subperm hmem).length_le⟩
  refine ⟨hlater, ?_, ?_⟩
  · intro hreturned
    obtain ⟨l, hl, hstopped⟩ := hreturned
    obtain ⟨-, horderly⟩ := hsane.winding.loop l hl
    rw [hstopped] at horderly
    obtain ⟨hshut, hdone⟩ := horderly
    obtain ⟨hwaiting, hdirty, hprocessing⟩ := hsane.winding.drained hbooks hsane.attended hdone
    refine ⟨hdone, hshut, hwaiting, hdirty, hprocessing, ?_, ?_⟩
    · intro k hk
      refine Entry.latest?_eq_handed hk fun hlatest => ?_
      have hin : k ∈ q.dirty := (hbooks.account.dirty k).2 hlatest
      rw [hdirty] at hin
      cases hin
    · intro later
      refine ⟨Returned.run ⟨l, hl, hstopped⟩ later, ?_⟩
      obtain ⟨keys, hlog, -, -, hlength⟩ := hlater hshut later
      rw [hdirty] at hlength
      obtain rfl := List.eq_nil_of_length_eq_zero (Nat.le_zero.1 hlength)
      exact hlog
  · intro hstop schedule hheedful
    refine exists_returned hheedful (fun n => ?_) (isSome_loop_run config hperiod events) hstop
    have hrun : d.trace schedule n = start.run (events ++ (List.range n).map schedule) :=
      (d.trace_eq_run schedule n).trans List.foldl_append.symm
    rw [hrun]
    exact sane_run config period _

/-- The only worker could not refresh a namespace, which is to be tried again later. It waits for the review
of another one, about which a second event came, when the service is told to stop. -/
def stoppedSample : List Event :=
  let down : Moment := { System.reviewing {} [] with fault := fun _ => some "down" }
  .publish (.apply .namespaces { name := some "a" }) ::
    (List.replicate 3 (.deliver 0) ++ List.replicate 5 (.work 0 down) ++
      .publish (.apply .namespaces { name := some "b" }) ::
        (List.replicate 3 (.deliver 1) ++ List.replicate 11 (.work 0 (System.reviewing {} ["u"])) ++
          .publish (.apply .namespaces { name := some "b" }) ::
            (List.replicate 3 (.deliver 2) ++ [.stop])))

/-- The worker and the loop take turns, and the loop prefers ticks to the signal. -/
def turns (n : Nat) : Event :=
  if n % 2 = 0 then .work 0 (System.reviewing {} ["u"]) else .loop .tick (System.reviewing {} ["u"])

theorem shutdown_drains_sample :
    let d := (serve { workers := 1 } 1000).run stoppedSample
    0 < 1000 ∧ d.stopping = true ∧ d.loop.any (·.ticker.due ≤ d.clock) = true ∧
      d.service.queue.delayed.length = 1 ∧ d.service.queue.dirty = [.ns "b"] ∧
      d.service.queue.processing = [.ns "b"] ∧ d.Heedful turns ∧
      ∃ n, (d.trace turns n).Returned ∧ (d.trace turns n).service.queue.dirty = [] ∧
        ∀ later, (d.trace turns n).log later = [] := by
  intro d
  have hreturned : (d.trace turns 80).Returned := by decide +kernel
  have hstop : d.stopping = true := by decide +kernel
  have hrun : ∀ n, d.trace turns n =
      (serve { workers := 1 } 1000).run (stoppedSample ++ (List.range n).map turns) := fun n =>
    (d.trace_eq_run turns n).trans List.foldl_append.symm
  have hheedful : d.Heedful turns := by
    refine heedful_of_returned (fun n => ?_) (fun i hi n => ?_) (fun n => ?_) hreturned
    · rw [hrun]
      exact winding_run { workers := 1 } 1000 _
    · have hlength : d.workers.length = 1 := by decide +kernel
      obtain rfl : i = 0 := by omega
      exact ⟨2 * n, by omega, _, if_pos (by omega)⟩
    · exact ⟨2 * n + 1, by omega, _, _, if_neg (by omega)⟩
  refine ⟨by decide, hstop, by decide +kernel, by decide +kernel, by decide +kernel, by decide +kernel,
    hheedful, ?_⟩
  obtain ⟨n, hn⟩ := (shutdown_drains { workers := 1 } (by decide) stoppedSample).2.2 hstop turns hheedful
  rw [hrun n] at hn
  obtain ⟨-, -, -, hdirty, -, -, hlater⟩ := (shutdown_drains { workers := 1 } (by decide)
    (stoppedSample ++ (List.range n).map turns)).2.1 hn
  rw [← hrun n] at hn hdirty hlater
  exact ⟨n, hn, hdirty, fun later => (hlater later).2⟩

end Deployment

end Visibility
