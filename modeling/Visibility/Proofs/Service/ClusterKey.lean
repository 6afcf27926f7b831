import Visibility.Proofs.Service.Custody
import Visibility.Proofs.Service.Hosting

/-!
What becomes of the key of the cluster.

A worker that handles it runs a pass, and a pass that finds another one running ends at once and counts as
done. No two workers have the key, so it is the pass of the loop that is in the way: without a loop, a
worker is done with the key only when a pass that began after the key was taken has been carried out.
-/

namespace Visibility

theorem Pass.inside_of_step {m : Moment} {c : Cache} {p : Phase}
    (h : (p.step m c).next.inside = true) : p.inside = true ∨ p = .enter := by
  cases p with
  | enter => exact .inr rfl
  | done result => cases h
  | _ => exact .inl rfl

theorem Pass.inside_step (m : Moment) (c : Cache) {p : Phase} (h : p.inside = true) :
    (p.step m c).next.inside = true ∨ (∃ plan, p = .finish plan) ∨
      ∃ e, (p.step m c).next = .done (.error e) := by
  cases p with
  | enter => cases h
  | hashCluster computation =>
      simp only [Phase.step]
      split
      · exact .inl rfl
      · rename_i e hc
        exact .inr (.inr ⟨e, rfl⟩)
      · exact .inl rfl
  | listNames cluster full =>
      simp only [Phase.step]
      split
      · exact .inl (inside_hashNext _ _ _ _)
      · exact .inl rfl
  | hashNamespaces cluster full left live =>
      cases left with
      | nil => exact .inl rfl
      | cons ns left => exact .inl (inside_hashNext _ _ _ _)
  | compare cluster full live => exact .inl (inside_visit _ _)
  | refresh plan left r =>
      simp only [Phase.step]
      split
      · exact .inl (inside_visit _ _)
      · exact .inl rfl
  | finish plan => exact .inr (.inl ⟨plan, rfl⟩)
  | done result => cases h

/-- A pass that comes to an end and counts as done has been carried out or found another one. -/
theorem Call.finish_or_syncing {m : Moment} {c : Cache} {p : Pass.Phase}
    (hended : (Call.pass p).ended = false)
    (h : ((Call.pass p).step m c).next.succeeded? = some true) :
    (∃ plan, p = .finish plan) ∨ p = .enter ∧ c.syncing = true := by
  have hsucceeded : (Call.pass (p.step m c).next).succeeded? = some true := h
  by_cases hinside : p.inside = true
  · rcases Pass.inside_step m c hinside with hin | hfinish | ⟨e, he⟩
    · cases hnext : (p.step m c).next with
      | done result =>
          rw [hnext] at hin
          cases hin
      | _ =>
          rw [hnext] at hsucceeded
          cases hsucceeded
    · exact .inl hfinish
    · rw [he] at hsucceeded
      cases hsucceeded
  · cases p with
    | enter =>
        refine .inr ⟨rfl, ?_⟩
        by_contra hs
        simp only [Pass.Phase.step, if_neg hs] at hsucceeded
        cases hsucceeded
    | done result => cases hended
    | _ => exact absurd rfl hinside

/-- Whether the next step of a worker ends the call for a key with success. -/
def Worker.succeeds (m : Moment) (c : Cache) (key : ChangeKey) (w : Worker) : Bool :=
  match w.phase with
  | .handle k call => k = key && (call.step m c).next.succeeded? = some true
  | _ => false

theorem Worker.exists_of_succeeds {m : Moment} {c : Cache} {key : ChangeKey} {w : Worker}
    (h : w.succeeds m c key = true) :
    ∃ call, w.phase = .handle key call ∧ (call.step m c).next.succeeded? = some true := by
  obtain ⟨ticket, phase⟩ := w
  cases phase with
  | handle k call =>
      simp only [succeeds, Bool.and_eq_true, decide_eq_true_eq] at h
      obtain ⟨rfl, hs⟩ := h
      exact ⟨call, rfl, hs⟩
  | _ => cases h

namespace Deployment

variable {d : Deployment} {allowed : Deployment → Event → Prop} {config : Config} {workers : Nat}
  {period : Option Nat}

/-- The pass of a worker has begun after the worker took its key. -/
def Fresh (d : Deployment) : Prop :=
  ∀ i w key call, d.workers[i]? = some w → w.phase = .handle key call →
    d.taken i < d.now ∧
      ∀ p, call = .pass p → p.inside = true → d.taken i < d.entered (.worker i)

theorem entered_note_of_ne {r r' : Runner} (h : r' ≠ r) : (d.note r).entered r' = d.entered r' := by
  rw [note]
  split
  · exact Function.update_of_ne h _ _
  · rfl
  · rfl

theorem entered_note_self {r : Runner} (h : d.call? r = some (.pass .enter)) :
    (d.note r).entered r = d.now := by
  rw [note, h]
  exact Function.update_self _ _ _

theorem entered_note {r : Runner} (h : d.call? r ≠ some (.pass .enter)) :
    (d.note r).entered = d.entered := by
  rw [note]
  split
  · rename_i hcall
    exact absurd hcall h
  · rfl
  · rfl

theorem taken_note (r : Runner) : (d.note r).taken = d.taken := by
  rw [note]
  split <;> rfl

theorem Fresh.of_eq {d' : Deployment} (h : d.Fresh) (hworkers : d'.workers = d.workers)
    (hnow : d'.now = d.now + 1) (htaken : d'.taken = d.taken)
    (hentered : ∀ i, d'.entered (.worker i) = d.entered (.worker i)) : d'.Fresh := by
  intro i w key call hi hw
  rw [hworkers] at hi
  obtain ⟨hlt, hpass⟩ := h i w key call hi hw
  rw [htaken, hnow]
  refine ⟨by omega, fun p hp hinside => ?_⟩
  rw [hentered]
  exact hpass p hp hinside

theorem Fresh.entered_lt (h : d.Fresh) {i : Nat} {w : Worker} {key : ChangeKey} {p : Pass.Phase}
    {m : Moment} (hi : d.workers[i]? = some w) (hw : w.phase = .handle key (.pass p))
    (hinside : (p.step m d.service.cache).next.inside = true) :
    d.taken i < (d.note (.worker i)).entered (.worker i) := by
  obtain ⟨hlt, hpass⟩ := h i w key _ hi hw
  have hcall : d.call? (.worker i) = some (.pass p) := by
    rw [call?, hi, Option.bind_some, Worker.call?, hw]
  rcases Pass.inside_of_step hinside with hp | rfl
  · rw [entered_note]
    · exact hpass p rfl hp
    · rw [hcall]
      intro heq
      cases heq
      cases hp
  · rw [entered_note_self hcall]
    exact hlt

theorem Fresh.work (h : d.Fresh) {i : Nat} {w : Worker} (m : Moment)
    (hi : d.workers[i]? = some w) : (d.next (.work i m)).Fresh := by
  have hnext : d.next (.work i m) = { d.work i w (d.moment m) with now := d.now + 1 } := by
    rw [next, act, hi, Option.elim_some]
  obtain ⟨hlt, -⟩ := List.getElem?_eq_some_iff.1 hi
  intro j v key call hj hv
  rw [hnext] at hj ⊢
  simp only [Deployment.work] at hj ⊢
  by_cases hji : j = i
  · subst hji
    rw [List.getElem?_set_self hlt, Option.some.injEq] at hj
    have hcall : v.call? = some call := by rw [Worker.call?, hv]
    have hshift := w.shift d.config d.clock (d.moment m) d.service
    rw [hj, hcall] at hshift
    obtain ⟨ticket, phase⟩ := w
    cases phase with
    | get g =>
        -- the key is taken with this very step, and its pass has not begun
        obtain ⟨key', rfl⟩ := hshift.exists_key
        simp only [takenAfter, Function.update_self]
        refine ⟨by omega, fun p hp hinside => ?_⟩
        cases key' with
        | cluster =>
            cases hp
            cases hinside
        | ns name => cases hp
    | handle key' before =>
        have htaken : d.takenAfter j ⟨ticket, .handle key' before⟩ = d.taken := rfl
        have htime := (h j _ key' before hi rfl).1
        rw [htaken]
        refine ⟨by omega, ?_⟩
        rintro p rfl hinside
        have hp := hshift.eq_next
        cases before with
        | refresh r => cases hp
        | pass q =>
            rw [Call.step, Call.pass.injEq] at hp
            exact h.entered_lt hi rfl (hp ▸ hinside)
    | settle key' succeeded =>
        subst hj
        cases hv
    | release key' =>
        subst hj
        cases hv
    | done more =>
        subst hj
        cases more <;> cases hv
  · rw [List.getElem?_set_ne (Ne.symm hji)] at hj
    obtain ⟨htime, hold⟩ := h j v key call hj hv
    have hentered : (d.note (.worker i)).entered (.worker j) = d.entered (.worker j) :=
      entered_note_of_ne fun heq => hji (Runner.worker.inj heq)
    rw [takenAfter_of_ne hji w, hentered]
    exact ⟨by omega, hold⟩

theorem Fresh.next (h : d.Fresh) (e : Event) : (d.next e).Fresh := by
  cases e with
  | publish c => exact h.of_eq rfl rfl rfl fun _ => rfl
  | deliver i =>
      simp only [Deployment.next, act]
      cases d.publications[i]? with
      | none => exact h.of_eq rfl rfl rfl fun _ => rfl
      | some p => exact h.of_eq rfl rfl rfl fun _ => rfl
  | work i m =>
      cases hi : d.workers[i]? with
      | none =>
          simp only [Deployment.next, act, hi]
          exact h.of_eq rfl rfl rfl fun _ => rfl
      | some w => exact h.work m hi
  | loop pick m =>
      simp only [Deployment.next, act]
      cases d.loop with
      | none => exact h.of_eq rfl rfl rfl fun _ => rfl
      | some l =>
          have hne (i : Nat) : Runner.worker i ≠ .loop := by
            intro heq
            cases heq
          exact h.of_eq (d.workers_note .loop) rfl (taken_note .loop) fun i =>
            entered_note_of_ne (hne i)
  | expire x =>
      simp only [Deployment.next, act]
      split
      · exact h.of_eq rfl rfl rfl fun _ => rfl
      · exact h.of_eq rfl rfl rfl fun _ => rfl
  | watch w => exact h.of_eq rfl rfl rfl fun _ => rfl
  | unwatch w => exact h.of_eq rfl rfl rfl fun _ => rfl
  | elapse time => exact h.of_eq rfl rfl rfl fun _ => rfl
  | stop => exact h.of_eq rfl rfl rfl fun _ => rfl

theorem Reachable.fresh (h : Reachable allowed (boot config workers period) d) : d.Fresh := by
  induction h with
  | init =>
      intro i w key call hi hw
      obtain ⟨ticket, -, rfl⟩ := List.mem_map.1 (List.mem_of_getElem? hi)
      cases hw
  | next _ _ ih => exact ih.next _

theorem Custody.key?_of_pass (h : d.Custody) {i : Nat} {p : Pass.Phase}
    (hcall : d.call? (.worker i) = some (.pass p)) : d.key? i = some .cluster := by
  rw [call?, Option.bind_eq_some_iff] at hcall
  obtain ⟨w, hi, hw⟩ := hcall
  have hproper := h.proper w (List.mem_of_getElem? hi)
  rw [key?, hi, Option.bind_some]
  obtain ⟨ticket, phase⟩ := w
  cases phase with
  | handle key call =>
      cases hw
      cases key with
      | cluster => rfl
      | ns name => exact hproper.1.elim
  | _ => cases hw

/-- When a worker is done with the key of the cluster, a pass that began after the key was taken has been
carried out, unless a pass of the loop is under way. -/
theorem carriedOut_or_loop_inside (h : Reachable allowed (boot config workers period) d) {i : Nat}
    {w : Worker} (m : Moment) (hi : d.workers[i]? = some w)
    (hs : w.succeeds (d.moment m) d.service.cache .cluster = true) :
    (∃ t ∈ (d.next (.work i m)).carriedOut, d.taken i < t) ∨
      ∃ p, d.call? .loop = some (.pass p) ∧ p.inside = true := by
  obtain ⟨call, hw, hs⟩ := Worker.exists_of_succeeds hs
  have hcustody := h.custody
  have hproper := hcustody.proper w (List.mem_of_getElem? hi)
  rw [Worker.Proper, hw] at hproper
  obtain ⟨hfits, hended⟩ := hproper
  have hcall : d.call? (.worker i) = some call := by
    rw [call?, hi, Option.bind_some, Worker.call?, hw]
  cases call with
  | refresh r => cases hfits
  | pass p =>
      rcases Call.finish_or_syncing hended hs with ⟨plan, rfl⟩ | ⟨rfl, hsyncing⟩
      · refine .inl ⟨d.entered (.worker i), ?_, (h.fresh i w _ _ hi hw).2 _ rfl rfl⟩
        have hcarried : (d.next (.work i m)).carriedOut = (d.note (.worker i)).carriedOut := by
          rw [next, act, hi, Option.elim_some]
          rfl
        rw [hcarried, note, hcall]
        exact List.mem_cons_self
      · refine .inr ?_
        obtain ⟨r, call, hr, hinside⟩ := h.exists_inPass hsyncing
        cases call with
        | refresh r => cases hinside
        | pass p =>
            cases r with
            | loop => exact ⟨p, hr, hinside⟩
            | worker j =>
                -- it would have the key of the cluster, too
                have hij : j = i := hcustody.lent.apart j i .cluster (hcustody.key?_of_pass hr)
                  (hcustody.key?_of_pass hcall)
                rw [hij, hcall, Option.some.injEq, Call.pass.injEq] at hr
                subst hr
                cases hinside

/-- A cluster role comes in, and the pass for it is about to be carried out. -/
def roleSample : Deployment :=
  (boot {} 1 none).run
    (.publish (.apply (.rbac .clusterRole) { name := some "r", uid := some "x" }) ::
      (List.replicate 3 (.deliver 0) ++
        List.replicate 10 (.work 0 (System.reviewing {} ["u"]))))

/-- The first pass of the loop asks about a namespace. While the reviewer thinks, a cluster role comes in
and a worker takes the key. -/
def overlappedSample : Deployment :=
  (boot {} 2 (some 1000)).run
    (.publish (.apply .namespaces { name := some "a" }) ::
      (List.replicate 3 (.deliver 0) ++ List.replicate 12 (.loop .tick (System.reviewing {} ["old"])) ++
        .publish (.apply (.rbac .clusterRole) { name := some "r", uid := some "x" }) ::
        (List.replicate 3 (.deliver 1) ++ List.replicate 2 (.work 0 (System.reviewing {} ["new"])) ++
          List.replicate 2 (.work 1 (System.reviewing {} ["new"])))))

theorem succeeds_overlappedSample :
    ∃ w, overlappedSample.workers[1]? = some w ∧
      w.succeeds (overlappedSample.moment (System.reviewing {} ["new"]))
        overlappedSample.service.cache .cluster = true := by
  have h : overlappedSample.workers[1]?.map (·.succeeds
      (overlappedSample.moment (System.reviewing {} ["new"])) overlappedSample.service.cache
        .cluster) = some true := by decide +kernel
  exact Option.map_eq_some_iff.1 h

theorem carriedOut_roleSample :
    ∃ t ∈ (roleSample.next (.work 0 (System.reviewing {} ["u"]))).carriedOut,
      roleSample.taken 0 < t := by
  have h : roleSample.workers[0]?.map (·.succeeds
      (roleSample.moment (System.reviewing {} ["u"])) roleSample.service.cache .cluster) =
        some true := by decide +kernel
  obtain ⟨w, hi, hs⟩ := Option.map_eq_some_iff.1 h
  have hreachable : Reachable anything (boot {} 1 none) roleSample :=
    Reachable.run .init fun _ _ _ => trivial
  rcases carriedOut_or_loop_inside hreachable (System.reviewing {} ["u"]) hi hs with
    hcarried | ⟨p, hp, -⟩
  · exact hcarried
  · have hloop : (roleSample.call? .loop).isSome = false := by decide +kernel
    rw [hp] at hloop
    cases hloop

/-- A worker that finds a pass of the loop running is done with the key of the cluster, though that pass
began before the key was taken. -/
theorem done_without_pass :
    ¬ ∀ (config : Config) (workers : Nat) (period : Option Nat) (d : Deployment) (i : Nat)
      (w : Worker) (m : Moment), Reachable anything (boot config workers period) d →
      d.workers[i]? = some w → w.succeeds (d.moment m) d.service.cache .cluster = true →
      ∃ t ∈ (d.next (.work i m)).carriedOut, d.taken i < t := by
  intro h
  obtain ⟨w, hi, hs⟩ := succeeds_overlappedSample
  have hreachable : Reachable anything (boot {} 2 (some 1000)) overlappedSample :=
    Reachable.run .init fun _ _ _ => trivial
  obtain ⟨t, ht, -⟩ := h {} 2 (some 1000) overlappedSample 1 w _ hreachable hi hs
  have hnone : (overlappedSample.next (.work 1 (System.reviewing {} ["new"]))).carriedOut = [] := by
    decide +kernel
  rw [hnone] at ht
  cases ht

end Deployment

end Visibility
