import Visibility.Proofs.Queue.Coherence
import Visibility.Proofs.Service.Deployment

namespace Visibility

/-- Whether a call is what a key asks for. -/
def ChangeKey.Fits : ChangeKey → Call → Prop
  | cluster, .pass _ => True
  | ns name, .refresh r => r.ns = name
  | _, _ => False

theorem ChangeKey.fits_call (k : ChangeKey) : k.Fits k.call := by
  cases k with
  | cluster => exact trivial
  | ns name => exact rfl

theorem ChangeKey.Fits.step {k : ChangeKey} {call : Call} (h : k.Fits call) (m : Moment) (c : Cache) :
    k.Fits (call.step m c).next := by
  cases k with
  | cluster =>
      cases call with
      | refresh r => cases h
      | pass p => exact trivial
  | ns name =>
      cases call with
      | refresh r => exact h
      | pass p => cases h

namespace Worker

/-- The key that a worker has. -/
def key? (w : Worker) : Option ChangeKey :=
  match w.phase with
  | .handle k _ | .settle k _ | .release k => some k
  | _ => none

/-- A worker that handles its key makes a call for it that has not ended. -/
def Proper (w : Worker) : Prop :=
  match w.phase with
  | .get g => ∀ k, g ≠ .got k
  | .handle k call => k.Fits call ∧ call.ended = false
  | _ => True

theorem proper_again {w : Worker} (h : w.Proper) : w.again.Proper := by
  obtain ⟨ticket, phase⟩ := w
  cases phase with
  | done more =>
      cases more with
      | true =>
          intro k hk
          cases hk
      | false => exact h
  | _ => exact h

theorem proper_step {w : Worker} (h : w.Proper) (config : Config) (now : Nat) (m : Moment)
    (s : Service) : (w.step config now m s).2.1.Proper := by
  obtain ⟨ticket, phase⟩ := w
  cases phase with
  | get g =>
      simp only [step]
      cases g.step ticket s.queue with
      | mk q g' =>
          cases g' with
          | got k => exact ⟨k.fits_call, k.ended_call⟩
          | closed => exact trivial
          | _ =>
              intro k hk
              cases hk
  | handle k call =>
      simp only [step]
      cases hs : (call.step m s.cache).next.succeeded? with
      | none =>
          refine ⟨h.1.step m s.cache, ?_⟩
          rw [← Call.isSome_succeeded?, hs]
          rfl
      | some succeeded => exact trivial
  | settle k succeeded => exact trivial
  | release k => exact trivial
  | done more => exact trivial

theorem grows_settle (config : Config) (now : Nat) (q : Queue ChangeKey) (k : ChangeKey)
    (succeeded : Bool) : q.Grows (settle config now q k succeeded) := by
  rw [settle]
  split
  · exact q.grows_forget k
  · split
    · exact q.grows_retry now k
    · exact q.grows_drop k

/-- What a step of a worker does to the queue and to its key: it has none, or takes one, or keeps it, or
releases it. -/
inductive Handling (q q' : Queue ChangeKey) (w w' : Worker) : Prop where
  | seek (hbefore : w.key? = none) (hafter : w'.key? = none) (hgrows : q.Grows q')
  | take (k : ChangeKey) (hbefore : w.key? = none) (hafter : w'.phase = .handle k k.call)
      (htake : q.take? = some (k, q'))
  | keep (k : ChangeKey) (hbefore : w.key? = some k) (hafter : w'.key? = some k)
      (hgrows : q.Grows q')
  | release (k : ChangeKey) (hbefore : w.phase = .release k) (hafter : w'.key? = none)
      (hrelease : q' = q.release k)

theorem handling {w : Worker} (h : w.Proper) (config : Config) (now : Nat) (m : Moment)
    (s : Service) :
    Handling s.queue (w.step config now m s).1.queue w (w.step config now m s).2.1.again := by
  obtain ⟨ticket, phase⟩ := w
  have hsame := Queue.Grows.refl s.queue
  cases phase with
  | get g =>
      have hcases := g.step_cases ticket s.queue h
      simp only [step]
      cases hg : g.step ticket s.queue with
      | mk q g' =>
          rw [hg] at hcases
          rcases hcases with ⟨k, hk, htake⟩ | ⟨hnone, hgrows⟩
          · dsimp only at hk
            subst hk
            exact .take k rfl rfl htake
          · cases g' with
            | got k => exact absurd rfl (hnone k)
            | _ => exact .seek rfl rfl hgrows
  | handle k call =>
      simp only [step]
      cases (call.step m s.cache).next.succeeded? with
      | none => exact .keep k rfl rfl hsame
      | some succeeded => exact .keep k rfl rfl hsame
  | settle k succeeded => exact .keep k rfl rfl (grows_settle config now s.queue k succeeded)
  | release k => exact .release k rfl rfl rfl
  | done more =>
      cases more with
      | true => exact .seek rfl rfl hsame
      | false => exact .seek rfl rfl hsame

end Worker

theorem Loop.queue_step (now : Nat) (stop workersDone : Bool) (pick : Cue) (m : Moment) (s : Service) (l : Loop) :
    (l.step now stop workersDone pick m s).1.queue = s.queue ∨
      (l.step now stop workersDone pick m s).1.queue = s.queue.shutDown := by
  obtain ⟨ofService, ticker, phase⟩ := l
  cases phase with
  | wait =>
      simp only [step]
      split
      · split
        · exact .inr rfl
        · exact .inl rfl
      · exact .inl rfl
      · exact .inl rfl
  | pass p => exact .inl rfl
  | drain =>
      simp only [step]
      split
      · exact .inl rfl
      · exact .inl rfl
  | stopped => exact .inl rfl

theorem Publication.grows_step (p : Publication) (s : Stores) (q : Queue ChangeKey) :
    q.Grows (p.step s q).2.1 := by
  have hsame := Queue.Grows.refl q
  cases p with
  | event c =>
      simp only [step]
      split
      · exact hsame
      · exact hsame
  | update c keys => exact hsame
  | enqueue completion keys =>
      cases keys with
      | nil => exact hsame
      | cons k keys => exact q.grows_add k
  | done completion => exact hsame

namespace Deployment

def key? (d : Deployment) (i : Nat) : Option ChangeKey := d.workers[i]?.bind Worker.key?

theorem exists_key?_of_call? {d : Deployment} {i : Nat} {call : Call}
    (h : d.call? (.worker i) = some call) : ∃ k, d.key? i = some k := by
  rw [call?, Option.bind_eq_some_iff] at h
  obtain ⟨w, hi, hw⟩ := h
  obtain ⟨ticket, phase⟩ := w
  cases phase with
  | handle k call => exact ⟨k, by rw [key?, hi, Option.bind_some, Worker.key?]⟩
  | _ => cases hw

/-- Each key that is being handled is with one worker, who makes the call for it. -/
structure Custody (d : Deployment) : Prop where
  lent : d.service.queue.Lent d.key?
  proper : ∀ w ∈ d.workers, w.Proper

variable {d d' : Deployment}

theorem custody_boot (config : Config) (workers : Nat) (period : Option Nat) :
    (boot config workers period).Custody := by
  have hnone : ∀ i, (boot config workers period).key? i = none := by
    intro i
    simp only [key?, boot, List.getElem?_map, Option.bind_map, Option.bind_eq_none_iff]
    intro j hj
    rfl
  refine ⟨⟨Queue.coherent_new _, ?_, ?_⟩, ?_⟩
  · intro i k hk
    rw [hnone] at hk
    cases hk
  · intro i j k hk
    rw [hnone] at hk
    cases hk
  · intro w hw
    obtain ⟨ticket, -, rfl⟩ := List.mem_map.1 hw
    exact nofun

theorem Custody.of_lent (h : d.Custody) (hworkers : d'.workers = d.workers)
    (hlent : d'.service.queue.Lent d.key?) : d'.Custody := by
  have hkey : d'.key? = d.key? := by
    funext i
    rw [key?, key?, hworkers]
  refine ⟨hkey ▸ hlent, ?_⟩
  rw [hworkers]
  exact h.proper

theorem Custody.of_handling (h : d.Custody) {i : Nat} {w w' : Worker} (hi : d.workers[i]? = some w)
    (hworkers : d'.workers = d.workers.set i w') (hproper : w'.Proper)
    (hhandling : Worker.Handling d.service.queue d'.service.queue w w') : d'.Custody := by
  have hold : d.key? i = w.key? := by rw [key?, hi, Option.bind_some]
  have hkey : d'.key? = Function.update d.key? i w'.key? := by
    funext j
    by_cases hji : j = i
    · subst hji
      obtain ⟨hlt, -⟩ := List.getElem?_eq_some_iff.1 hi
      rw [Function.update_self, key?, hworkers, List.getElem?_set_self hlt, Option.bind_some]
    · rw [Function.update_of_ne hji, key?, key?, hworkers, List.getElem?_set_ne (Ne.symm hji)]
  have hsame : w'.key? = w.key? → d'.key? = d.key? := by
    intro heq
    rw [hkey, heq, ← hold, Function.update_eq_self]
  refine ⟨?_, ?_⟩
  · cases hhandling with
    | seek hbefore hafter hgrows =>
        rw [hsame (hafter.trans hbefore.symm)]
        exact h.lent.grows hgrows
    | take k hbefore hafter htake =>
        have hk : w'.key? = some k := by rw [Worker.key?, hafter]
        rw [hkey, hk]
        exact h.lent.take i htake
    | keep k hbefore hafter hgrows =>
        rw [hsame (hafter.trans hbefore.symm)]
        exact h.lent.grows hgrows
    | release k hbefore hafter hrelease =>
        have hk : w.key? = some k := by rw [Worker.key?, hbefore]
        rw [hkey, hafter, hrelease]
        exact h.lent.release (hold.trans hk)
  · intro v hv
    rw [hworkers] at hv
    rcases List.mem_or_eq_of_mem_set hv with hv | rfl
    · exact h.proper v hv
    · exact hproper

theorem Custody.act (h : d.Custody) (e : Event) : (d.act e).Custody := by
  cases e with
  | publish c => exact h.of_lent rfl h.lent
  | deliver i =>
      simp only [Deployment.act]
      cases d.publications[i]? with
      | none => exact h
      | some p => exact h.of_lent rfl (h.lent.grows (p.grows_step d.stores d.service.queue))
  | work i m =>
      simp only [Deployment.act]
      cases hi : d.workers[i]? with
      | none => exact h
      | some w =>
          have hw := h.proper w (List.mem_of_getElem? hi)
          exact h.of_handling hi rfl (Worker.proper_again (Worker.proper_step hw _ _ _ _))
            (Worker.handling hw d.config d.clock (d.moment m) d.service)
  | loop pick m =>
      simp only [Deployment.act]
      cases d.loop with
      | none => exact h
      | some l =>
          have hworkers : (d.goOn pick l (d.moment m)).workers = d.workers := d.workers_note .loop
          refine h.of_lent hworkers ?_
          rcases l.queue_step d.clock d.stopping d.workersDone pick (d.moment m) d.service with hq | hq
          · exact hq ▸ h.lent
          · exact hq ▸ h.lent.shutDown
  | expire x =>
      simp only [Deployment.act]
      split
      · exact h.of_lent rfl (h.lent.grows (d.service.queue.grows_expire x))
      · exact h
  | watch w => exact h.of_lent rfl h.lent
  | unwatch w => exact h.of_lent rfl h.lent
  | elapse time => exact h.of_lent rfl h.lent
  | stop => exact h.of_lent rfl h.lent

theorem Custody.next (h : d.Custody) (e : Event) : (d.next e).Custody := by
  have hact := h.act e
  exact ⟨hact.lent, hact.proper⟩

theorem Reachable.custody {allowed : Deployment → Event → Prop} {config : Config} {workers : Nat}
    {period : Option Nat} (h : Reachable allowed (boot config workers period) d) : d.Custody := by
  induction h with
  | init => exact custody_boot config workers period
  | @next d e _ _ ih => exact ih.next e

end Deployment

end Visibility
