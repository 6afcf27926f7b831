import Visibility.Proofs.Cache.Upkeep
import Visibility.Proofs.Service.Custody
import Visibility.Proofs.Service.Hosting

/-!
One worker without a loop keeps the cache up to date.

A namespace whose record is not current has its key or that of the cluster dirty, or about to be queued by
an event that has changed the stores, or else the call that the worker makes is on the way to a current
record. So once nothing is left to do, every record is current.
-/

namespace Visibility

namespace Publication

/-- The keys that an event that has changed the stores has yet to queue. -/
def owed : Publication → List ChangeKey
  | enqueue _ keys => keys
  | _ => []

/-- Whether an event has begun and not come to its end. -/
def halfDone : Publication → Bool
  | update _ _ | enqueue _ _ => true
  | event _ | done _ => false

/-- Whether the keys that an event will queue are its keys. -/
def Proper : Publication → Prop
  | update c keys => c.keys? = some keys
  | _ => True

theorem owed_of_halfDone {p : Publication} (h : p.halfDone = false) : p.owed = [] := by
  cases p with
  | event c => rfl
  | update c keys => cases h
  | enqueue completion keys => cases h
  | done completion => rfl

theorem proper_step (p : Publication) (s : Stores) (q : Queue ChangeKey) : (p.step s q).2.2.Proper := by
  cases p with
  | event c =>
      simp only [step]
      split
      · rename_i keys hkeys
        exact hkeys
      · exact trivial
  | update c keys => exact trivial
  | enqueue completion keys =>
      cases keys with
      | nil => exact trivial
      | cons k keys => exact trivial
  | done completion => exact trivial

theorem owed_step {p : Publication} {k : ChangeKey} (hk : k ∈ p.owed) (s : Stores)
    {q : Queue ChangeKey} (hopen : q.shuttingDown = false) :
    k ∈ (p.step s q).2.1.dirty ∨ k ∈ (p.step s q).2.2.owed := by
  cases p with
  | enqueue completion keys =>
      cases keys with
      | nil => cases hk
      | cons k' keys =>
          rcases List.mem_cons.1 hk with rfl | hk
          · exact .inl (Queue.mem_dirty_add.2 (.inr ⟨rfl, hopen⟩))
          · exact .inr hk
  | _ => cases hk

theorem stores_step (p : Publication) (s : Stores) (q : Queue ChangeKey) :
    (p.step s q).1 = s ∨
      ∃ c keys, p = update c keys ∧ (p.step s q).1 = (s.apply c).1 ∧ (p.step s q).2.2.owed = keys := by
  cases p with
  | event c =>
      refine .inl ?_
      rw [step]
      split <;> rfl
  | update c keys => exact .inr ⟨c, keys, rfl, rfl, rfl⟩
  | enqueue completion keys =>
      cases keys with
      | nil => exact .inl rfl
      | cons k keys => exact .inl rfl
  | done completion => exact .inl rfl

end Publication

/-- Whether a call that may be under way leaves, once it has ended, a current record. -/
def UpToDate (x : Aspect) (c : Cache) (ns : String) : Option Call → Prop
  | none => c.Current x ns
  | some call => call.Current x c ns

theorem UpToDate.of_records {x : Aspect} {c c' : Cache} {ns : String} {call : Option Call}
    (h : UpToDate x c ns call) (heq : c'.records = c.records) : UpToDate x c' ns call := by
  cases call with
  | none => exact Cache.Current.of_get?_eq h (by rw [heq])
  | some call => exact Call.Current.of_get?_eq h (by rw [heq])

/-- The call for the key of a namespace, or for that of the cluster, is on the way to a current record of
the namespace; that for another key leaves its record alone. -/
theorem ChangeKey.upToDate_call {x : Aspect} {c : Cache} {ns : String} {k : ChangeKey}
    (h : k = .cluster ∨ k = .ns ns ∨ c.Current x ns) : UpToDate x c ns (some k.call) := by
  cases k with
  | cluster => exact trivial
  | ns name =>
      show if name = ns then _ else _
      split
      · exact trivial
      · rename_i hname
        rcases h with h | h | h
        · cases h
        · cases h
          exact absurd rfl hname
        · exact h

theorem Shift.upToDate {m : Moment} {s : Stores} {c c' : Cache} {before after : Option Call}
    {ns : String} (h : Shift m c before c' after) (hm : m.Calm s) (hs : c.clusterHash.Sound s.rbac)
    (hbusy : ∀ call, before = some call → call.computation? = some .enter →
      c.clusterHash.busy = false)
    (hsyncing : before = some (.pass .enter) → c.syncing = false)
    (hbefore : UpToDate (s.aspect ns) c ns before) : UpToDate (s.aspect ns) c' ns after := by
  cases h with
  | rest => exact hbefore
  | begin key => exact key.upToDate_call (.inr (.inr hbefore))
  | step call =>
      have hnext := Call.current_step hm hs (hbusy call rfl) (fun hc => hsyncing (congrArg some hc))
        hbefore
      rw [Call.unended]
      split
      · rename_i hended
        exact Call.current_of_ended hnext hended
      · exact hnext

namespace Deployment

/-- At every step of a worker no look fails and the reviewer answers. -/
def calm (d : Deployment) : Event → Prop
  | .work _ m => (d.moment m).Calm d.stores
  | _ => True

/-- Whether a key is dirty, or an event that has changed the stores has yet to queue it. -/
def Pending (d : Deployment) (k : ChangeKey) : Prop :=
  k ∈ d.service.queue.dirty ∨ ∃ p ∈ d.publications, k ∈ p.owed

/-- An open queue with a single worker, under which every namespace is up to date or has a key
pending. -/
structure Upkept (d : Deployment) : Prop where
  opened : d.service.queue.shuttingDown = false
  single : d.workers.length = 1
  unlooped : d.loop = none
  proper : ∀ p ∈ d.publications, p.Proper
  covered : ∀ ns, d.Pending .cluster ∨ d.Pending (.ns ns) ∨
    UpToDate (d.stores.aspect ns) d.service.cache ns (d.call? (.worker 0))

variable {d d' : Deployment} {config : Config}

theorem Pending.mono {k : ChangeKey} (h : d.Pending k)
    (hdirty : ∀ k ∈ d.service.queue.dirty, k ∈ d'.service.queue.dirty)
    (hpublications : ∀ p ∈ d.publications, p ∈ d'.publications) : d'.Pending k := by
  rcases h with hk | ⟨p, hp, hk⟩
  · exact .inl (hdirty k hk)
  · exact .inr ⟨p, hpublications p hp, hk⟩

theorem upkept_boot (config : Config) : (boot config 1 none).Upkept := by
  constructor
  · exact rfl
  · exact rfl
  · exact rfl
  · intro p hp
    cases hp
  · intro ns
    refine .inr (.inr ?_)
    rw [call?_boot]
    refine ⟨fun hlive => ?_, fun _ => rfl⟩
    cases hlive

theorem Upkept.of_grows (h : d.Upkept) (hgrows : d.service.queue.Grows d'.service.queue)
    (hworkers : d'.workers = d.workers) (hloop : d'.loop = d.loop) (hstores : d'.stores = d.stores)
    (hpublications : ∀ p ∈ d.publications, p ∈ d'.publications)
    (hproper : ∀ p ∈ d'.publications, p.Proper)
    (hrecords : d'.service.cache.records = d.service.cache.records) : d'.Upkept := by
  have hcall : d'.call? (.worker 0) = d.call? (.worker 0) := by rw [call?, call?, hworkers]
  constructor
  · exact hgrows.shuttingDown.trans h.opened
  · rw [hworkers]
    exact h.single
  · exact hloop.trans h.unlooped
  · exact hproper
  · intro ns
    refine (h.covered ns).imp (·.mono hgrows.dirty hpublications) ?_
    refine Or.imp (·.mono hgrows.dirty hpublications) ?_
    intro hcurrent
    rw [hstores, hcall]
    exact hcurrent.of_records hrecords

theorem Upkept.deliver (h : d.Upkept) {i : Nat} {p : Publication}
    (hi : d.publications[i]? = some p) : (d.deliver i p).Upkept := by
  have hp := List.mem_of_getElem? hi
  obtain ⟨hlt, -⟩ := List.getElem?_eq_some_iff.1 hi
  have hgrows := p.grows_step d.stores d.service.queue
  let p' := (p.step d.stores d.service.queue).2.2
  have hp' : p' ∈ (d.deliver i p).publications := List.mem_set hlt p'
  have hpending : ∀ k, d.Pending k → (d.deliver i p).Pending k := by
    rintro k (hk | ⟨q, hq, hk⟩)
    · exact .inl (hgrows.dirty k hk)
    · obtain ⟨j, hj⟩ := List.mem_iff_getElem?.1 hq
      by_cases hij : i = j
      · subst hij
        rw [hi, Option.some.injEq] at hj
        subst hj
        exact (Publication.owed_step hk d.stores h.opened).imp_right fun howed => ⟨p', hp', howed⟩
      · refine .inr ⟨q, List.mem_iff_getElem?.2 ⟨j, ?_⟩, hk⟩
        exact (List.getElem?_set_ne hij).trans hj
  constructor
  · exact hgrows.shuttingDown.trans h.opened
  · exact h.single
  · exact h.unlooped
  · intro q hq
    rcases List.mem_or_eq_of_mem_set hq with hq | rfl
    · exact h.proper q hq
    · exact p.proper_step d.stores d.service.queue
  · intro ns
    rcases h.covered ns with hcluster | hns | hcurrent
    · exact .inl (hpending _ hcluster)
    · exact .inr (.inl (hpending _ hns))
    · rcases p.stores_step d.stores d.service.queue with hsame | ⟨c, keys, rfl, hstores, howed⟩
      · refine .inr (.inr ?_)
        show UpToDate ((p.step d.stores d.service.queue).1.aspect ns) d.service.cache ns _
        rw [hsame]
        exact hcurrent
      · -- the keys that the event owes from now on are those of all that it has changed
        have hkeys : c.keys? = some keys := h.proper _ hp
        by_cases hcluster : .cluster ∈ keys
        · exact .inl (.inr ⟨p', hp', howed ▸ hcluster⟩)
        · by_cases hns : .ns ns ∈ keys
          · exact .inr (.inl (.inr ⟨p', hp', howed ▸ hns⟩))
          · refine .inr (.inr ?_)
            show UpToDate ((d.stores.apply c).1.aspect ns) d.service.cache ns _
            rw [Stores.aspect_apply hkeys hcluster hns]
            exact hcurrent

theorem Upkept.eq_worker (h : d.Upkept) {r : Runner} {call : Call} (hr : d.call? r = some call) :
    r = .worker 0 := by
  cases r with
  | loop =>
      rw [call?, h.unlooped] at hr
      cases hr
  | worker i =>
      rw [call?, Option.bind_eq_some_iff] at hr
      obtain ⟨w, hi, -⟩ := hr
      obtain ⟨hlt, -⟩ := List.getElem?_eq_some_iff.1 hi
      rw [h.single] at hlt
      rw [Nat.lt_one_iff.1 hlt]

/-! A lock that is taken belongs to a call, and the only call under way is the one that is about to take
it. -/

theorem Upkept.busy_eq_false (h : d.Upkept) (hreachable : Reachable calm (boot config 1 none) d)
    {call : Call} (hcall : d.call? (.worker 0) = some call)
    (henter : call.computation? = some .enter) : d.service.cache.clusterHash.busy = false := by
  by_contra hb
  obtain ⟨r, call', hr, hcomputes⟩ := hreachable.exists_computes (eq_true_of_ne_false hb)
  rw [h.eq_worker hr, hcall, Option.some.injEq] at hr
  rw [← hr, Call.computes, henter] at hcomputes
  cases hcomputes

theorem Upkept.syncing_eq_false (h : d.Upkept) (hreachable : Reachable calm (boot config 1 none) d)
    (hcall : d.call? (.worker 0) = some (.pass .enter)) : d.service.cache.syncing = false := by
  by_contra hs
  obtain ⟨r, call, hr, hinside⟩ := hreachable.exists_inPass (eq_true_of_ne_false hs)
  rw [h.eq_worker hr, hcall, Option.some.injEq] at hr
  rw [← hr] at hinside
  cases hinside

theorem pending_work {i : Nat} {w : Worker} (hw : w.Proper) (m : Moment)
    (hi : d.workers[i]? = some w) {k : ChangeKey} (hk : d.Pending k) :
    (d.work i w m).Pending k ∨ (d.work i w m).call? (.worker i) = some k.call := by
  have hpublications : (d.work i w m).publications = d.publications := d.publications_note _
  rcases hk with hk | ⟨p, hp, hk⟩
  · cases Worker.handling hw d.config d.clock m d.service with
    | seek hbefore hafter hgrows => exact .inl (.inl (hgrows.dirty k hk))
    | take k' hbefore hafter htake =>
        by_cases hkk' : k = k'
        · subst hkk'
          obtain ⟨hlt, -⟩ := List.getElem?_eq_some_iff.1 hi
          refine .inr ?_
          simp only [work, call?]
          rw [List.getElem?_set_self hlt, Option.bind_some, Worker.call?, hafter]
        · obtain ⟨-, hdirty, -, -⟩ := Queue.take?_eq_some htake
          refine .inl (.inl ?_)
          show k ∈ (w.step d.config d.clock m d.service).1.queue.dirty
          rw [hdirty]
          exact List.mem_filter.2 ⟨hk, decide_eq_true hkk'⟩
    | keep k' hbefore hafter hgrows => exact .inl (.inl (hgrows.dirty k hk))
    | release k' hbefore hafter hrelease =>
        refine .inl (.inl ?_)
        show k ∈ (w.step d.config d.clock m d.service).1.queue.dirty
        rw [hrelease, Queue.dirty_release]
        exact hk
  · exact .inl (.inr ⟨p, hpublications ▸ hp, hk⟩)

theorem shuttingDown_work {i : Nat} {w : Worker} (hw : w.Proper) (m : Moment) :
    (d.work i w m).service.queue.shuttingDown = d.service.queue.shuttingDown := by
  cases Worker.handling hw d.config d.clock m d.service with
  | seek hbefore hafter hgrows => exact hgrows.shuttingDown
  | take k hbefore hafter htake =>
      obtain ⟨-, -, -, hshut⟩ := Queue.take?_eq_some htake
      exact hshut
  | keep k hbefore hafter hgrows => exact hgrows.shuttingDown
  | release k hbefore hafter hrelease =>
      show (w.step d.config d.clock m d.service).1.queue.shuttingDown = _
      rw [hrelease, Queue.shuttingDown_release]

theorem Upkept.work (h : d.Upkept) (hreachable : Reachable calm (boot config 1 none) d) {i : Nat}
    {w : Worker} {m : Moment} (hi : d.workers[i]? = some w) (hm : (d.moment m).Calm d.stores) :
    (d.work i w (d.moment m)).Upkept := by
  have hw := hreachable.custody.proper w (List.mem_of_getElem? hi)
  obtain ⟨hsound, -⟩ := hreachable.sound
  have hstores : (d.work i w (d.moment m)).stores = d.stores := d.stores_note _
  have hpublications : (d.work i w (d.moment m)).publications = d.publications :=
    d.publications_note _
  have hi0 : i = 0 := by
    obtain ⟨hlt, -⟩ := List.getElem?_eq_some_iff.1 hi
    have hsingle := h.single
    omega
  subst hi0
  constructor
  · exact (shuttingDown_work hw _).trans h.opened
  · exact (List.length_set).trans h.single
  · exact (d.loop_note _).trans h.unlooped
  · rw [hpublications]
    exact h.proper
  · intro ns
    rw [hstores]
    -- once the worker takes a pending key, the call for it is what brings the record up to date
    rcases h.covered ns with hcluster | hns | hcurrent
    · refine (pending_work hw (d.moment m) hi hcluster).imp_right fun hcall => .inr ?_
      rw [hcall]
      exact ChangeKey.upToDate_call (.inl rfl)
    · refine .inr ((pending_work hw (d.moment m) hi hns).imp_right fun hcall => ?_)
      rw [hcall]
      exact ChangeKey.upToDate_call (.inr (.inl rfl))
    · exact .inr (.inr ((shift_work (d.moment m) hi).upToDate hm hsound
        (fun _ => h.busy_eq_false hreachable) (h.syncing_eq_false hreachable) hcurrent))

theorem Upkept.act (h : d.Upkept) (hreachable : Reachable calm (boot config 1 none) d) {e : Event}
    (he : d.calm e) : (d.act e).Upkept := by
  have hsame := Queue.Grows.refl d.service.queue
  have hall : ∀ p ∈ d.publications, p ∈ d.publications := fun _ hp => hp
  cases e with
  | publish c =>
      refine h.of_grows hsame rfl rfl rfl (fun p hp => List.mem_append_left _ hp) ?_ rfl
      intro p hp
      rcases List.mem_append.1 hp with hp | hp
      · exact h.proper p hp
      · rw [List.mem_singleton.1 hp]
        exact trivial
  | deliver i =>
      simp only [Deployment.act]
      cases hi : d.publications[i]? with
      | none => exact h
      | some p => exact h.deliver hi
  | work i m =>
      simp only [Deployment.act]
      cases hi : d.workers[i]? with
      | none => exact h
      | some w => exact h.work hreachable hi he
  | loop pick m =>
      simp only [Deployment.act, h.unlooped]
      exact h
  | expire x =>
      simp only [Deployment.act]
      split
      · exact h.of_grows (d.service.queue.grows_expire x) rfl rfl rfl hall h.proper rfl
      · exact h
  | watch w => exact h.of_grows hsame rfl rfl rfl hall h.proper rfl
  | unwatch w => exact h.of_grows hsame rfl rfl rfl hall h.proper rfl
  | elapse time => exact h.of_grows hsame rfl rfl rfl hall h.proper rfl
  | stop => exact h.of_grows hsame rfl rfl rfl hall h.proper rfl

theorem Reachable.upkept (h : Reachable calm (boot config 1 none) d) : d.Upkept := by
  induction h with
  | init => exact upkept_boot config
  | @next d e hd he ih =>
      have hact := ih.act hd he
      exact ⟨hact.opened, hact.single, hact.unlooped, hact.proper, hact.covered⟩

/-- One worker without a loop, at whose steps nothing fails: whenever no event is half done and the queue
has no key, waiting or with the worker, the namespaces with a record are those that are there, and every
record carries the current hash. -/
theorem current_of_drained (h : Reachable calm (boot config 1 none) d)
    (hpublications : ∀ p ∈ d.publications, p.halfDone = false)
    (hwaiting : d.service.queue.waiting = []) (hprocessing : d.service.queue.processing = [])
    (ns : String) :
    (d.stores.live ns = true →
      ∃ r, d.service.cache.records.get? ns = some r ∧ r.hash = d.stores.hash ns) ∧
      (d.stores.live ns = false → d.service.cache.records.get? ns = none) := by
  have hcustody := h.custody
  have hpending : ∀ k, ¬d.Pending k := by
    rintro k (hk | ⟨p, hp, hk⟩)
    · -- a dirty key waits or is with the worker
      rcases hcustody.lent.coherent.placed k hk with hw | hp
      · rw [hwaiting] at hw
        cases hw
      · rw [hprocessing] at hp
        cases hp
    · rw [Publication.owed_of_halfDone (hpublications p hp)] at hk
      cases hk
  have hidle : d.call? (.worker 0) = none := by
    rw [Option.eq_none_iff_forall_ne_some]
    intro call hcall
    obtain ⟨k, hk⟩ := exists_key?_of_call? hcall
    have hheld := hcustody.lent.held 0 k hk
    rw [hprocessing] at hheld
    cases hheld
  rcases h.upkept.covered ns with hcluster | hns | hcurrent
  · exact absurd hcluster (hpending _)
  · exact absurd hns (hpending _)
  · rw [hidle] at hcurrent
    exact ⟨hcurrent.live, hcurrent.gone⟩

/-- A namespace comes in; while the reviewer thinks about it, so does a binding in it; and the worker goes
on until it has nothing left to do. -/
def drainedEvents : List Event :=
  .publish (.apply .namespaces { name := some "a" }) ::
    (List.replicate 4 (.deliver 0) ++ List.replicate 11 (.work 0 (System.reviewing {} ["u"])) ++
      .publish (.apply (.rbac .roleBinding)
        { name := some "b", ns := some "a", uid := some "x", resourceVersion := some "1" }) ::
      (List.replicate 4 (.deliver 1) ++ List.replicate 40 (.work 0 (System.reviewing {} ["u"]))))

theorem calm_drainedEvents {e : Event} (he : e ∈ drainedEvents) (d : Deployment) : d.calm e := by
  have hcalm : (d.moment (System.reviewing {} ["u"])).Calm d.stores :=
    ⟨⟨rfl, fun _ => rfl⟩, fun _ _ => ⟨["u"], [], rfl⟩⟩
  simp only [drainedEvents, List.mem_cons, List.mem_append, List.mem_replicate] at he
  rcases he with rfl | (⟨-, rfl⟩ | ⟨-, rfl⟩) | rfl | ⟨-, rfl⟩ | ⟨-, rfl⟩
  · exact trivial
  · exact trivial
  · exact hcalm
  · exact trivial
  · exact trivial
  · exact hcalm

theorem current_of_drained_sample :
    ∃ r, ((boot {} 1 none).run drainedEvents).service.cache.records.get? "a" = some r ∧
      r.hash = ((boot {} 1 none).run drainedEvents).stores.hash "a" := by
  have hreachable : Reachable calm (boot {} 1 none) ((boot {} 1 none).run drainedEvents) :=
    Reachable.run .init fun _ he d => calm_drainedEvents he d
  have hpublications : ∀ p ∈ ((boot {} 1 none).run drainedEvents).publications,
      p.halfDone = false := by decide +kernel
  have hwaiting : ((boot {} 1 none).run drainedEvents).service.queue.waiting = [] := by
    decide +kernel
  have hprocessing : ((boot {} 1 none).run drainedEvents).service.queue.processing = [] := by
    decide +kernel
  have hlive : ((boot {} 1 none).run drainedEvents).stores.live "a" = true := by decide +kernel
  exact (current_of_drained hreachable hpublications hwaiting hprocessing "a").1 hlive

end Deployment

end Visibility
