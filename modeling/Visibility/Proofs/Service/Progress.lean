import Visibility.Proofs.Queue.Persistence
import Visibility.Proofs.Service.Retries
import Visibility.Proofs.Service.Shutdown

/-!
A service that goes on: if its workers get their steps, its calls return, the time passes and delays end, then
every key that the queue accepted is handed out, as long as the queue does not shut down.

Some worker looks at the queue again and again while a key waits, and those that wait before the key are handed
out one after the other.
-/

namespace Visibility

theorem Worker.key?_of_getter {w : Worker} {k : ChangeKey} (hproper : w.Proper)
    (h : w.getter.key? = some k) : w.key? = some k := by
  obtain ⟨ticket, phase⟩ := w
  cases phase with
  | get g =>
      cases g with
      | got j => exact absurd rfl (hproper j)
      | _ => cases h
  | handle j call | settle j succeeded | release j => exact h
  | done more => cases more <;> cases h

namespace Deployment

variable {d : Deployment} {schedule : Nat → Event} {k : ChangeKey} {i n : Nat} {w : Worker}
  {x : Delayed ChangeKey}

theorem Seated.waiting_next (h : d.Seated) (e : Event) :
    (∃ k, d.logs? e = some (.handed k) ∧
        d.service.queue.waiting = k :: (d.next e).service.queue.waiting) ∨
      (∀ k, d.logs? e ≠ some (.handed k)) ∧
        d.service.queue.waiting <+: (d.next e).service.queue.waiting := by
  rw [h.queue_next e, logs?]
  cases d.dealing? e with
  | none => exact .inr ⟨fun k hk => Option.some_ne_none _ hk.symm, List.prefix_refl _⟩
  | some deal => exact (d.traffic.move deal).waiting

theorem Seated.place_next (h : d.Seated) {p : Nat} (hp : d.service.queue.waiting[p]? = some k) {e : Event}
    (hnot : d.logs? e ≠ some (.handed k)) :
    ∃ s ≤ p, (d.next e).service.queue.waiting[s]? = some k ∧ ∀ j, d.logs? e = some (.handed j) → s < p := by
  rcases h.waiting_next e with ⟨j, hj, hwaiting⟩ | ⟨hnone, suffix, hwaiting⟩
  · rw [hwaiting] at hp
    cases p with
    | zero => exact absurd (hj.trans (by rw [Option.some.inj hp])) hnot
    | succ p => exact ⟨p, Nat.le_succ p, hp, fun _ _ => Nat.lt_succ_self p⟩
  · refine ⟨p, Nat.le_refl p, ?_, fun j hj => absurd hj (hnone j)⟩
    obtain ⟨hlt, -⟩ := List.getElem?_eq_some_iff.1 hp
    rw [← hwaiting, List.getElem?_append_left hlt]
    exact hp

theorem le_clock_next (d : Deployment) (e : Event) : d.clock ≤ (d.next e).clock := by
  cases e with
  | deliver i =>
      simp only [Deployment.next, act]
      cases d.publications[i]? <;> exact Nat.le_refl _
  | work i m =>
      simp only [Deployment.next, act]
      cases d.workers[i]? with
      | none => exact Nat.le_refl _
      | some w => exact Nat.le_of_eq (d.clock_note (.worker i)).symm
  | loop pick m =>
      simp only [Deployment.next, act]
      cases d.loop with
      | none => exact Nat.le_refl _
      | some l => exact Nat.le_of_eq (d.clock_note .loop).symm
  | expire x =>
      simp only [Deployment.next, act]
      split <;> exact Nat.le_refl _
  | elapse time => exact Nat.le_add_right _ _
  | _ => exact Nat.le_refl _

theorem eq_expire_of_dealing? {e : Event} (h : d.dealing? e = some (.expire x)) : e = .expire x := by
  rcases dealing?_cases h with ⟨k, hk⟩ | hshut | ⟨time, htime⟩ | ⟨y, hy, rfl⟩ | ⟨i, m, w, -, -, hw⟩
  · cases hk
  · cases hshut
  · cases htime
  · cases hy
    rfl
  · rcases Worker.dealing?_cases hw with hw | hw | ⟨k, hw | hw | hw⟩ <;> cases hw

theorem Seated.mem_delayed_next (h : d.Seated) (hx : x ∈ d.service.queue.delayed) {e : Event}
    (hopen : (d.next e).service.queue.shuttingDown = false) :
    x ∈ (d.next e).service.queue.delayed ∨ e = .expire x ∧ x.due ≤ d.clock := by
  rw [h.queue_next e] at hopen ⊢
  cases hdeal : d.dealing? e with
  | none => exact .inl hx
  | some deal =>
      rw [hdeal] at hopen
      refine (Traffic.mem_delayed_next (t := d.traffic) hx hopen).imp id ?_
      rintro ⟨rfl, hdue⟩
      exact ⟨eq_expire_of_dealing? hdeal, hdue⟩

theorem mem_dirty_expire (hx : x ∈ d.service.queue.delayed) (hdue : x.due ≤ d.clock)
    (hopen : d.service.queue.shuttingDown = false) :
    x.key ∈ (d.next (.expire x)).service.queue.dirty := by
  simp only [Deployment.next, act, if_pos (And.intro hx hdue)]
  exact Queue.mem_dirty_add.2 (.inr ⟨rfl, hopen⟩)

/-- All that holds of a service with workers in every run. -/
structure Alert (d : Deployment) : Prop where
  seated : d.Seated
  custody : d.Custody
  again : ∀ w ∈ d.workers, w.again = w
  attended : d.traffic.Attended
  roused : d.traffic.Roused
  vigilant : d.traffic.Vigilant
  owned : ∀ k ∈ d.service.queue.processing, ∃ i, d.traffic.key? i = some k

theorem again_run (config : Config) (workers : Nat) (period : Option Nat) (events : List Event) :
    ∀ w ∈ ((boot config workers period).run events).workers, w.again = w := by
  induction events using List.reverseRecOn with
  | nil =>
      intro w hw
      obtain ⟨i, -, rfl⟩ := List.mem_map.1 hw
      rfl
  | append_singleton events e ih =>
      intro w hw
      rw [run, List.foldl_concat] at hw
      obtain ⟨i, hi⟩ := List.getElem?_of_mem hw
      rcases getElem?_workers_next _ e i with hsame | ⟨m, v, -, -, hnext⟩
      · exact ih w (List.mem_of_getElem? (hsame.symm.trans hi))
      · obtain rfl := Option.some.inj (hnext.symm.trans hi)
        exact Worker.again_again _

theorem alert_run (config : Config) {workers : Nat} (hworkers : 0 < workers) (period : Option Nat)
    (events : List Event) : ((boot config workers period).run events).Alert := by
  obtain ⟨deals, hrun, -⟩ := exists_traffic_run config workers period events
  refine ⟨seated_run config workers period events, custody_run config workers period events,
    again_run config workers period events, ?_, ?_, ?_, (books_run config workers period events).owned⟩
  · rw [hrun]
    exact Traffic.attended_run config.limiter hworkers deals
  · rw [hrun]
    exact Traffic.roused_run config.limiter workers deals
  · rw [hrun]
    exact Traffic.vigilant_run config.limiter workers deals

/-- A fair schedule on which the time passes, and every key whose delay is over is added. -/
structure Prompt (d : Deployment) (schedule : Nat → Event) : Prop extends d.Fair schedule where
  passes : ∀ time, ∃ n, time ≤ (d.trace schedule n).clock
  expires : ∀ n x, x ∈ (d.trace schedule n).service.queue.delayed → x.due ≤ (d.trace schedule n).clock →
    ∃ n' ≥ n, schedule n' = .expire x

/-- A service that goes on and does not shut its queue down. -/
structure Live (d : Deployment) (schedule : Nat → Event) : Prop where
  prompt : d.Prompt schedule
  alert : ∀ n, (d.trace schedule n).Alert
  opened : ∀ n, (d.trace schedule n).service.queue.shuttingDown = false

theorem Seated.seeks_next (h : d.Seated) {g : Getter ChangeKey}
    (hseeks : g.seeks d.service.queue.wake i = true) {e : Event} (he : ∀ m, e ≠ .work i m)
    (hopen : (d.next e).service.queue.shuttingDown = false) :
    g.seeks (d.next e).service.queue.wake i = true := by
  rw [h.queue_next e] at hopen ⊢
  cases hdeal : d.dealing? e with
  | none => exact hseeks
  | some deal =>
      rw [hdeal] at hopen
      refine (Traffic.retains_next (t := d.traffic) ?_ hopen).seeks hseeks
      rintro rfl
      rcases dealing?_cases hdeal with ⟨k, hk⟩ | hshut | ⟨time, htime⟩ | ⟨y, hy, -⟩ | ⟨j, m, v, rfl, hj, hv⟩
      · cases hk
      · cases hshut
      · cases htime
      · cases hy
      · obtain rfl := h j v hj
        rcases Worker.dealing?_cases hv with hv | hv | ⟨k, hv | hv | hv⟩
        · exact he m (congrArg (Event.work · m) (Traffic.Event.get.inj hv).symm)
        all_goals cases hv

theorem logs?_look (h : d.Seated) {ticket round : Nat} (hi : d.workers[i]? = some ⟨ticket, .get (.look round)⟩)
    (hwaiting : d.service.queue.waiting ≠ []) (m : Moment) :
    ∃ k, d.logs? (.work i m) = some (.handed k) := by
  obtain rfl := h i _ hi
  obtain ⟨k, rest, hk⟩ := List.exists_cons_of_ne_nil hwaiting
  have hhanded : d.traffic.handed? (.get ticket) = some k := by
    rw [Traffic.handed?, getElem?_getters hi]
    simp [Worker.getter, traffic, Queue.take?, hk]
  refine ⟨k, ?_⟩
  simp only [logs?, dealing?, hi, Option.bind_some, Worker.dealing?, Traffic.logs?, hhanded]

theorem queue_next_release {ticket : Nat} (hi : d.workers[i]? = some ⟨ticket, .release k⟩) (m : Moment) :
    (d.next (.work i m)).service.queue = d.service.queue.release k := by
  simp only [Deployment.next, act, hi]
  rfl

theorem next_work_get {ticket : Nat} {g : Getter ChangeKey}
    (hi : d.workers[i]? = some ⟨ticket, .get g⟩) (m : Moment) :
    (d.next (.work i m)).service.queue = (g.step ticket d.service.queue).1 ∧
      ∃ v, (d.next (.work i m)).workers[i]? = some v ∧ v.getter = (g.step ticket d.service.queue).2 := by
  refine ⟨?_, _, getElem?_workers_work hi m,
    Worker.getter_step_get d.config d.clock (d.moment m) d.service ticket g⟩
  rw [← Worker.queue_step_get d.config d.clock (d.moment m)]
  simp only [Deployment.next, act, hi]
  rfl

section Live

variable (h : d.Live schedule)
include h

theorem Live.exists_step {P : Deployment → Prop} (hi : (d.trace schedule n).workers[i]? = some w)
    (hP : P (d.trace schedule n))
    (hkeeps : ∀ l, P (d.trace schedule l) → (∀ m, schedule l ≠ .work i m) →
      P (d.trace schedule (l + 1))) :
    ∃ l ≥ n, ∃ m, schedule l = .work i m ∧ (d.trace schedule l).workers[i]? = some w ∧
      P (d.trace schedule l) := by
  obtain ⟨n', hn', m, hm, -⟩ := exists_step_worker h.prompt.toFair hi
  have hstays : ∀ l, ((d.trace schedule l).workers[i]? = some w ∧ P (d.trace schedule l)) →
      (¬∃ m, schedule l = .work i m) →
      (d.trace schedule (l + 1)).workers[i]? = some w ∧ P (d.trace schedule (l + 1)) := by
    intro l hl hother
    refine ⟨?_, hkeeps l hl.2 fun m hm => hother ⟨m, hm⟩⟩
    rcases (d.trace schedule l).getElem?_workers_next (schedule l) i with hsame | ⟨m, -, hm, -⟩
    · exact hsame.trans hl.1
    · exact absurd ⟨m, hm⟩ hother
  obtain ⟨l, hl, ⟨m, hm⟩, hw, hPl⟩ := stays_until
    (P := fun d => d.workers[i]? = some w ∧ P d) (E := fun e => ∃ m, e = .work i m) hstays ⟨hi, hP⟩ hn' ⟨m, hm⟩
  exact ⟨l, hl, m, hm, hw, hPl⟩

theorem Live.exists_turn (hi : (d.trace schedule n).workers[i]? = some w) :
    ∃ l ≥ n, ∃ m, schedule l = .work i m ∧ (d.trace schedule l).workers[i]? = some w := by
  obtain ⟨l, hl, m, hm, hw, -⟩ := h.exists_step (P := fun _ => True) hi trivial fun _ _ _ => trivial
  exact ⟨l, hl, m, hm, hw⟩

theorem Live.waiting_ne_nil (hquiet : ∀ l ≥ n, ∀ k, (d.trace schedule l).logs? (schedule l) ≠ some (.handed k))
    (hwaiting : (d.trace schedule n).service.queue.waiting ≠ []) {l : Nat} (hl : n ≤ l) :
    (d.trace schedule l).service.queue.waiting ≠ [] := by
  induction hl with
  | refl => exact hwaiting
  | @step l hl ih =>
      rcases (h.alert l).seated.waiting_next (schedule l) with ⟨k, hk, -⟩ | ⟨-, hprefix⟩
      · exact absurd hk (hquiet l hl k)
      · exact fun hnil => ih (List.prefix_nil.1 (hnil ▸ hprefix))

theorem Live.exists_handed_of_seeks (hi : (d.trace schedule n).workers[i]? = some w)
    (hseeks : w.getter.seeks (d.trace schedule n).service.queue.wake i = true)
    (hwaiting : ∀ l ≥ n, (d.trace schedule l).service.queue.waiting ≠ []) :
    ∃ n' ≥ n, ∃ k, (d.trace schedule n').logs? (schedule n') = some (.handed k) := by
  -- each of its steps brings the worker closer to its look, at which it takes a key
  induction hr : w.getter.remaining using Nat.strongRecOn generalizing n w with
  | ind r ih =>
      subst hr
      have hagain := (h.alert n).again _ (List.mem_of_getElem? hi)
      obtain ⟨ticket, phase⟩ := w
      cases phase with
      | get g =>
          obtain ⟨l, hl, m, hm, hw, hsought⟩ := h.exists_step
            (P := fun d => g.seeks d.service.queue.wake i = true) hi hseeks
            fun l hl hother => (h.alert l).seated.seeks_next hl hother (h.opened (l + 1))
          obtain rfl := (h.alert l).seated i _ hw
          rcases Getter.step_seeks hsought with ⟨round, rfl⟩ | ⟨hseeks', hlt⟩
          · obtain ⟨k, hk⟩ := logs?_look (h.alert l).seated hw (hwaiting l hl) m
            exact ⟨l, hl, k, hm ▸ hk⟩
          · obtain ⟨hqueue, v, hv, hgetter⟩ := next_work_get hw m
            rw [← hm] at hqueue hv
            rw [← hgetter] at hseeks' hlt
            rw [← hqueue] at hseeks'
            obtain ⟨n', hn', hresult⟩ := ih _ hlt (n := l + 1) hv hseeks'
              (fun l' hl' => hwaiting l' (by omega)) rfl
            exact ⟨n', by omega, hresult⟩
      | done more =>
          cases more with
          | true => cases hagain
          | false => cases hseeks
      | _ => cases hseeks

omit h in
theorem exists_change {P : Deployment → Prop} {n' : Nat} (hbefore : P (d.trace schedule n)) (hle : n ≤ n')
    (hafter : ¬P (d.trace schedule n')) :
    ∃ l ≥ n, P (d.trace schedule l) ∧ ¬P (d.trace schedule (l + 1)) := by
  by_contra hnone
  induction hle with
  | refl => exact hafter hbefore
  | @step l hl ih => exact ih fun hnow => hnone ⟨l, hl, hnow, hafter⟩

theorem Live.exists_settling (hi : (d.trace schedule n).workers[i]? = some w) (hworks : w.worksOn k = true) :
    ∃ l ≥ n, ∃ m ticket succeeded, schedule l = .work i m ∧
      (d.trace schedule l).workers[i]? = some ⟨ticket, .settle k succeeded⟩ := by
  have hsettles : ∀ n ticket succeeded,
      (d.trace schedule n).workers[i]? = some ⟨ticket, .settle k succeeded⟩ →
      ∃ l ≥ n, ∃ m ticket succeeded, schedule l = .work i m ∧
        (d.trace schedule l).workers[i]? = some ⟨ticket, .settle k succeeded⟩ := by
    intro n ticket succeeded hi
    obtain ⟨l, hl, m, hm, hw⟩ := h.exists_turn hi
    exact ⟨l, hl, m, ticket, succeeded, hm, hw⟩
  obtain ⟨ticket, phase⟩ := w
  cases phase with
  | settle j succeeded =>
      obtain rfl := of_decide_eq_true hworks
      exact hsettles n ticket succeeded hi
  | handle j call =>
      obtain rfl := of_decide_eq_true hworks
      have hcalls : (d.trace schedule n).call? (.worker i) ≠ none := by
        rw [call?, hi]
        exact Option.some_ne_none _
      obtain ⟨n', hn', hnone⟩ := h.prompt.returns (.worker i) n hcalls
      obtain ⟨l, hl, ⟨ticket, call, hw⟩, hleft⟩ := exists_change
        (P := fun d => ∃ ticket call, d.workers[i]? = some ⟨ticket, .handle j call⟩) ⟨ticket, call, hi⟩ hn' (by
          rintro ⟨ticket, call, hw⟩
          rw [call?, hw] at hnone
          cases hnone)
      rcases (d.trace schedule l).getElem?_workers_next (schedule l) i with hsame | ⟨m, v, hm, hv, hnext⟩
      · exact absurd ⟨ticket, call, hsame.trans hw⟩ hleft
      · obtain rfl := Option.some.inj (hv.symm.trans hw)
        simp only [Worker.step] at hnext
        cases hs : (call.step ((d.trace schedule l).moment m) (d.trace schedule l).service.cache).next.succeeded? with
        | none =>
            rw [hs] at hnext
            exact absurd ⟨ticket, _, hnext⟩ hleft
        | some succeeded =>
            rw [hs] at hnext
            obtain ⟨l', hl', hresult⟩ := hsettles (l + 1) ticket succeeded hnext
            exact ⟨l', by omega, hresult⟩
  | _ => cases hworks

theorem Live.exists_releasing (hi : (d.trace schedule n).workers[i]? = some w) (hkey : w.key? = some k) :
    ∃ l ≥ n, ∃ m ticket, schedule l = .work i m ∧
      (d.trace schedule l).workers[i]? = some ⟨ticket, .release k⟩ := by
  have hreleases : ∀ n ticket, (d.trace schedule n).workers[i]? = some ⟨ticket, .release k⟩ →
      ∃ l ≥ n, ∃ m ticket, schedule l = .work i m ∧
        (d.trace schedule l).workers[i]? = some ⟨ticket, .release k⟩ := by
    intro n ticket hi
    obtain ⟨l, hl, m, hm, hw⟩ := h.exists_turn hi
    exact ⟨l, hl, m, ticket, hm, hw⟩
  by_cases hworks : w.worksOn k = true
  · obtain ⟨l, hl, m, ticket, succeeded, hm, hw⟩ := h.exists_settling hi hworks
    have hstep := getElem?_workers_work hw m
    rw [← hm] at hstep
    obtain ⟨l', hl', hresult⟩ := hreleases (l + 1) ticket hstep
    exact ⟨l', by omega, hresult⟩
  · obtain ⟨ticket, phase⟩ := w
    cases phase with
    | release j =>
        obtain rfl := Option.some.inj hkey
        exact hreleases n ticket hi
    | handle j call | settle j succeeded => exact absurd (decide_eq_true (Option.some.inj hkey)) hworks
    | _ => cases hkey

theorem Live.attentive (hwaiting : (d.trace schedule n).service.queue.waiting ≠ []) :
    (d.trace schedule n).service.queue.wake.permit = true ∨
      ∃ (i : Nat) (w : Worker), (d.trace schedule n).workers[i]? = some w ∧
        w.getter.seeks (d.trace schedule n).service.queue.wake i = true := by
  refine ((h.alert n).vigilant.attentive hwaiting).imp id ?_
  rintro ⟨i, g, hi, hseeks⟩
  obtain ⟨w, hw, rfl⟩ := exists_worker_of_getters hi
  exact ⟨i, w, hw, hseeks⟩

/-- A worker without a key looks at the queue if there is a permit: it is about to look, or it is woken, or it
finds the permit when it would park, unless another worker has it before. -/
theorem Live.exists_seeks_of_permit (hpermit : (d.trace schedule n).service.queue.wake.permit = true)
    (hwaiting : ∀ l ≥ n, (d.trace schedule l).service.queue.waiting ≠ []) {ticket : Nat}
    {g : Getter ChangeKey} (hi : (d.trace schedule n).workers[i]? = some ⟨ticket, .get g⟩)
    (hproper : ∀ k, g ≠ .got k) (hopen : g ≠ .closed) :
    ∃ l ≥ n, ∃ (i : Nat) (w : Worker), (d.trace schedule l).workers[i]? = some w ∧
      w.getter.seeks (d.trace schedule l).service.queue.wake i = true := by
  cases g with
  | enter | look round => exact ⟨n, Nat.le_refl n, i, _, hi, rfl⟩
  | park round =>
      obtain ⟨l, hl, m, hm, hw⟩ := h.exists_turn hi
      rcases h.attentive (hwaiting l hl) with hpermit | ⟨j, v, hv, hseeks⟩
      · obtain ⟨-, v, hv, hgetter⟩ := next_work_get hw m
        rw [← hm] at hv
        refine ⟨l + 1, by omega, i, v, hv, ?_⟩
        rw [hgetter, Getter.step, Wake.park, if_pos hpermit]
        rfl
      · exact ⟨l, hl, j, v, hv, hseeks⟩
  | parked =>
      have hregisters := (h.alert n).vigilant.registers
      have hreached := (h.alert n).roused.reached i _ (getElem?_getters hi)
      rw [Worker.getter, Getter.Reached, hregisters.permit hpermit] at hreached
      exact ⟨n, Nat.le_refl n, i, _, hi, decide_eq_true (hreached.resolve_left List.not_mem_nil)⟩
  | got k => exact absurd rfl (hproper k)
  | closed => exact absurd rfl hopen

theorem Live.exists_seeks (hwaiting : ∀ l ≥ n, (d.trace schedule l).service.queue.waiting ≠ []) :
    ∃ l ≥ n, ∃ (i : Nat) (w : Worker), (d.trace schedule l).workers[i]? = some w ∧
      w.getter.seeks (d.trace schedule l).service.queue.wake i = true := by
  rcases h.attentive (hwaiting n (Nat.le_refl n)) with hpermit | ⟨i, w, hw, hseeks⟩
  · obtain ⟨g, hg⟩ := List.exists_mem_of_ne_nil _ (h.alert n).attended.nonempty
    obtain ⟨i, hi⟩ := List.mem_iff_getElem?.1 hg
    obtain ⟨w, hw, rfl⟩ := exists_worker_of_getters hi
    have hagain := (h.alert n).again _ (List.mem_of_getElem? hw)
    have hproper := (h.alert n).custody.proper _ (List.mem_of_getElem? hw)
    have hopen : w.getter ≠ .closed := fun hclosed => by
      cases (h.opened n).symm.trans ((h.alert n).attended.closed (hclosed ▸ hg))
    by_cases hkey : ∃ k, w.key? = some k
    · obtain ⟨k, hk⟩ := hkey
      obtain ⟨l, hl, m, ticket, hm, hw⟩ := h.exists_releasing hw hk
      have hstep := getElem?_workers_work hw m
      rw [← hm] at hstep
      exact ⟨l + 1, by omega, i, _, hstep, rfl⟩
    obtain ⟨ticket, phase⟩ := w
    cases phase with
    | get g =>
        refine h.exists_seeks_of_permit hpermit hwaiting hw (fun k hk => ?_) fun hg => ?_
        · subst hk
          exact hproper k rfl
        · subst hg
          exact hopen rfl
    | done more =>
        cases more with
        | true => cases hagain
        | false => exact absurd rfl hopen
    | _ => exact absurd ⟨_, rfl⟩ hkey
  · exact ⟨n, Nat.le_refl n, i, w, hw, hseeks⟩

theorem Live.exists_handed (hwaiting : (d.trace schedule n).service.queue.waiting ≠ []) :
    ∃ l ≥ n, ∃ k, (d.trace schedule l).logs? (schedule l) = some (.handed k) := by
  by_contra hnone
  have hstill : ∀ l ≥ n, (d.trace schedule l).service.queue.waiting ≠ [] := fun l hl =>
    h.waiting_ne_nil (fun l hl k hk => hnone ⟨l, hl, k, hk⟩) hwaiting hl
  obtain ⟨l, hl, i, w, hw, hseeks⟩ := h.exists_seeks hstill
  obtain ⟨l', hl', k, hk⟩ := h.exists_handed_of_seeks hw hseeks fun l' hl' => hstill l' (by omega)
  exact hnone ⟨l', by omega, k, hk⟩

theorem Live.exists_handed_of_waiting {p : Nat} (hp : (d.trace schedule n).service.queue.waiting[p]? = some k) :
    ∃ l ≥ n, (d.trace schedule l).logs? (schedule l) = some (.handed k) := by
  -- each hand-out of another key moves this one up
  induction p using Nat.strongRecOn generalizing n with
  | ind p ih =>
      by_contra hnone
      have hnot : ∀ l ≥ n, (d.trace schedule l).logs? (schedule l) ≠ some (.handed k) :=
        fun l hl hk => hnone ⟨l, hl, hk⟩
      have hplace : ∀ l ≥ n, ∃ s ≤ p, (d.trace schedule l).service.queue.waiting[s]? = some k := by
        intro l hl
        induction hl with
        | refl => exact ⟨p, Nat.le_refl p, hp⟩
        | @step l hl ih =>
            obtain ⟨s, hs, hk⟩ := ih
            obtain ⟨s', hs', hk', -⟩ := (h.alert l).seated.place_next hk (hnot l hl)
            exact ⟨s', Nat.le_trans hs' hs, hk'⟩
      have hwaiting : (d.trace schedule n).service.queue.waiting ≠ [] := by
        intro hnil
        rw [hnil] at hp
        cases hp
      obtain ⟨l, hl, j, hj⟩ := h.exists_handed hwaiting
      obtain ⟨s, hs, hk⟩ := hplace l hl
      obtain ⟨s', -, hk', hlt⟩ := (h.alert l).seated.place_next hk (hnot l hl)
      obtain ⟨l', hl', hhanded⟩ := ih s' (Nat.lt_of_lt_of_le (hlt j hj) hs) (n := l + 1) hk'
      exact hnot l' (by omega) hhanded

/-- A key that is dirty is handed out: one that a worker still has waits as soon as it is released. -/
theorem Live.exists_handed_of_dirty (hk : k ∈ (d.trace schedule n).service.queue.dirty) :
    ∃ l ≥ n, (d.trace schedule l).logs? (schedule l) = some (.handed k) := by
  by_contra hnone
  have hdirty : ∀ l ≥ n, k ∈ (d.trace schedule l).service.queue.dirty := by
    intro l hl
    induction hl with
    | refl => exact hk
    | @step l hl ih =>
        exact ((h.alert l).seated.dirty_next ih (schedule l)).resolve_right fun hhanded => hnone ⟨l, hl, hhanded⟩
  have hwaits : ∀ l ≥ n, k ∉ (d.trace schedule l).service.queue.waiting := by
    intro l hl hwaiting
    obtain ⟨p, hp⟩ := List.mem_iff_getElem?.1 hwaiting
    obtain ⟨l', hl', hhanded⟩ := h.exists_handed_of_waiting hp
    exact hnone ⟨l', by omega, hhanded⟩
  have hheld := fun l hl => ((h.alert l).custody.lent.coherent.placed k (hdirty l hl)).resolve_left (hwaits l hl)
  obtain ⟨i, hi⟩ := (h.alert n).owned k (hheld n (Nat.le_refl n))
  obtain ⟨g, hg, hkey⟩ := Option.bind_eq_some_iff.1 hi
  obtain ⟨w, hw, rfl⟩ := exists_worker_of_getters hg
  have hproper := (h.alert n).custody.proper w (List.mem_of_getElem? hw)
  obtain ⟨l, hl, m, ticket, hm, hw⟩ := h.exists_releasing hw (Worker.key?_of_getter hproper hkey)
  have hprocessing := hheld (l + 1) (by omega)
  rw [trace, hm, queue_next_release hw, Queue.processing_release, List.mem_filter] at hprocessing
  exact of_decide_eq_true hprocessing.2 rfl

theorem Live.exists_dirty_of_change {n' : Nat} (hx : x ∈ (d.trace schedule n).service.queue.delayed) (hle : n ≤ n')
    (hgone : x ∉ (d.trace schedule n').service.queue.delayed) :
    ∃ l ≥ n, x.key ∈ (d.trace schedule l).service.queue.dirty := by
  obtain ⟨l, hl, hstill, hended⟩ := exists_change (P := fun d => x ∈ d.service.queue.delayed) hx hle hgone
  obtain ⟨hevent, hdue⟩ := ((h.alert l).seated.mem_delayed_next hstill (h.opened (l + 1))).resolve_left hended
  refine ⟨l + 1, by omega, ?_⟩
  rw [trace, hevent]
  exact mem_dirty_expire hstill hdue (h.opened l)

theorem Live.exists_dirty_of_delayed (hx : x ∈ (d.trace schedule n).service.queue.delayed) :
    ∃ l ≥ n, x.key ∈ (d.trace schedule l).service.queue.dirty := by
  obtain ⟨t, ht⟩ := h.prompt.passes x.due
  have hdue : ∀ l ≥ t, x.due ≤ (d.trace schedule l).clock := fun l hl =>
    stays (P := fun d => x.due ≤ d.clock)
      (fun l hdue => Nat.le_trans hdue (le_clock_next _ (schedule l))) hl ht
  by_cases hlate : x ∈ (d.trace schedule (max n t)).service.queue.delayed
  · obtain ⟨l, hl, hevent⟩ := h.prompt.expires _ x hlate (hdue _ (Nat.le_max_right n t))
    by_cases hstill : x ∈ (d.trace schedule l).service.queue.delayed
    · refine ⟨l + 1, by omega, ?_⟩
      rw [trace, hevent]
      exact mem_dirty_expire hstill (hdue l (by omega)) (h.opened l)
    · exact h.exists_dirty_of_change hx (by omega) hstill
  · exact h.exists_dirty_of_change hx (Nat.le_max_left n t) hlate

end Live

end Deployment

end Visibility
