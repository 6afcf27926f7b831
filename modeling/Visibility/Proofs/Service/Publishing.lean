import Visibility.Proofs.Service.EventDriven
import Visibility.Proofs.Service.Shutdown
import Visibility.Proofs.Stores.Contents

namespace Visibility

theorem isSome_keyOf? (r : Resource) (o : Object) : (r.keyOf? o).isSome = true ↔ o.name ≠ none := by
  rw [Resource.keyOf?, Option.isSome_map, Option.isSome_iff_ne_none]

theorem isSome_mapM_keyOf? {r : Resource} {objects : List Object} :
    (objects.mapM r.keyOf?).isSome = true ↔ ∀ o ∈ objects, o.name ≠ none := by
  induction objects with
  | nil => exact ⟨fun _ => List.forall_mem_nil _, fun _ => rfl⟩
  | cons o rest ih =>
      rw [List.forall_mem_cons, ← ih, ← isSome_keyOf? r, List.mapM_cons]
      cases r.keyOf? o <;> cases rest.mapM r.keyOf? <;> simp

namespace Change

theorem isSome_keys? (c : Change) : c.keys?.isSome = true ↔ c.Named := by
  cases c with
  | apply r o =>
      rw [keys?, Option.isSome_map, isSome_keyOf?, Named, objects, List.forall_mem_singleton]
  | delete r ns name => exact ⟨fun _ _ ho => absurd ho List.not_mem_nil, fun _ => rfl⟩
  | reset r objects removed =>
      rw [keys?, Option.isSome_map]
      exact isSome_mapM_keyOf?

theorem getLast?_keys? {r : Resource} {objects : List Object} {removed : List (String × String)}
    {keys : List ChangeKey} (h : (reset r objects removed).keys? = some keys) :
    keys.getLast? = some .cluster := by
  obtain ⟨applied, -, rfl⟩ := Option.map_eq_some_iff.1 h
  exact List.getLast?_concat

end Change

namespace Stores

variable {c : Change} {keys : List ChangeKey}

theorem completion_applyAll {σ : Type} {apply : σ → Object → Option σ} {objects : List Object}
    (h : ∀ s, ∀ o ∈ objects, apply s o ≠ none) (s : σ) : (applyAll apply s objects).2 = .complete := by
  induction objects generalizing s with
  | nil => rfl
  | cons o rest ih =>
      rw [applyAll]
      cases ho : apply s o with
      | none => exact absurd ho (h s o List.mem_cons_self)
      | some s' => exact ih (fun s o ho => h s o (List.mem_cons_of_mem _ ho)) s'

theorem completion_apply (h : c.Named) (s : Stores) : (s.apply c).2 = .complete := by
  have hrbac : ∀ k ix, ∀ o ∈ c.objects, Rbac.Index.apply k ix o ≠ none :=
    fun _ _ o ho hnone => h o ho (Option.map_eq_none_iff.1 hnone)
  have hnamespaces : ∀ store, ∀ o ∈ c.objects, Namespaces.apply store o ≠ none :=
    fun _ o ho hnone => h o ho (Option.map_eq_none_iff.1 hnone)
  cases c with
  | apply r o =>
      cases r with
      | rbac k =>
          rw [apply]
          cases ho : s.rbac.apply k o with
          | none => exact absurd ho (hrbac k s.rbac o List.mem_cons_self)
          | some ix => rfl
      | namespaces =>
          rw [apply]
          cases ho : s.namespaces.apply o with
          | none => exact absurd ho (hnamespaces s.namespaces o List.mem_cons_self)
          | some store => rfl
  | delete r ns name => cases r <;> rfl
  | reset r objects removed =>
      cases r with
      | rbac k =>
          have hall := completion_applyAll (hrbac k) s.rbac
          simp only [apply, Rbac.Index.reset]
          split
          · rename_i hstopped
            rw [Change.objects, hstopped] at hall
            cases hall
          · rfl
      | namespaces =>
          have hall := completion_applyAll hnamespaces s.namespaces
          simp only [apply, Namespaces.reset]
          split
          · rename_i hstopped
            rw [Change.objects, hstopped] at hall
            cases hall
          · rfl

/-! The listings that a change leaves alone. -/

theorem listCluster_apply (h : c.keys? = some keys) (hcluster : .cluster ∉ keys) (s : Stores)
    (k : Rbac.Kind) : (s.apply c).1.rbac.listCluster k = s.rbac.listCluster k := by
  have hspares := spares_apply (s := s) h
  cases k with
  | clusterRole =>
      have hroles : (s.apply c).1.rbac.clusterRoles = s.rbac.clusterRoles :=
        hspares.get_eq .clusterRoles hcluster
      rw [Rbac.Index.listCluster, hroles, Rbac.Index.listCluster]
  | clusterRoleBinding =>
      have hbindings : (s.apply c).1.rbac.clusterRoleBindings = s.rbac.clusterRoleBindings :=
        hspares.get_eq .clusterRoleBindings hcluster
      rw [Rbac.Index.listCluster, hbindings, Rbac.Index.listCluster]
  | role | roleBinding => rfl

theorem listNamespaced_apply (h : c.keys? = some keys) {ns : String} (hns : .ns ns ∉ keys) (s : Stores) :
    (s.apply c).1.rbac.listNamespaced ns = s.rbac.listNamespaced ns := by
  have hspares := spares_apply (s := s) h
  have hroles : ((s.apply c).1.rbac.inNamespace ns).roles = (s.rbac.inNamespace ns).roles :=
    hspares.get_eq (.roles ns) hns
  have hbindings : ((s.apply c).1.rbac.inNamespace ns).roleBindings =
      (s.rbac.inNamespace ns).roleBindings := hspares.get_eq (.roleBindings ns) hns
  rw [Rbac.Index.listNamespaced, Rbac.Local.refs, hroles, hbindings, Rbac.Index.listNamespaced,
    Rbac.Local.refs]

theorem cluster_mem_keys (h : c.keys? = some keys) {s : Stores} {k : Rbac.Kind}
    (hne : (s.apply c).1.rbac.listCluster k ≠ s.rbac.listCluster k) : .cluster ∈ keys := by
  by_contra hcluster
  exact hne (listCluster_apply h hcluster s k)

theorem ns_mem_keys (h : c.keys? = some keys) {s : Stores} {ns : String}
    (hne : (s.apply c).1.rbac.listNamespaced ns ≠ s.rbac.listNamespaced ns ∨
      (s.apply c).1.namespaces.get? ns ≠ s.namespaces.get? ns) : .ns ns ∈ keys := by
  by_contra hns
  rcases hne with hne | hne
  · exact hne (listNamespaced_apply h hns s)
  · exact hne (get?_apply h hns)

end Stores

namespace Publication

/-- How many steps an event has still to make. -/
def remaining : Publication → Nat
  | event c => c.keys?.elim 1 (·.length + 3)
  | update _ keys => keys.length + 2
  | enqueue _ keys => keys.length + 1
  | done _ => 0

/-- How the update of the stores went, once it was made. -/
def completion? : Publication → Option Completion
  | enqueue completion _ | done completion => some completion
  | event _ | update _ _ => none

theorem remaining_step (p : Publication) (s : Stores) (q : Queue ChangeKey) :
    (p.step s q).2.2.remaining = p.remaining - 1 := by
  cases p with
  | event c =>
      simp only [step, remaining]
      cases c.keys? <;> rfl
  | update c keys => rfl
  | enqueue completion keys => cases keys <;> rfl
  | done completion => rfl

theorem exists_done_of_remaining {p : Publication} (h : p.remaining = 0) :
    ∃ completion, p = done completion := by
  cases p with
  | event c =>
      rw [remaining] at h
      cases hkeys : c.keys? with
      | none =>
          rw [hkeys] at h
          cases h
      | some keys =>
          rw [hkeys] at h
          cases h
  | update c keys | enqueue completion keys => cases h
  | done completion => exact ⟨completion, rfl⟩

theorem completion?_step {p : Publication} {completion : Completion}
    (h : p.completion? = some completion) (s : Stores) (q : Queue ChangeKey) :
    (p.step s q).2.2.completion? = some completion := by
  cases p with
  | event c | update c keys => cases h
  | enqueue completion' keys => cases keys <;> exact h
  | done completion' => exact h

/-- The key that an event queues with its next step. -/
def queues? : Publication → Option ChangeKey
  | enqueue _ (k :: _) => some k
  | _ => none

theorem owed_eq_queues? {p : Publication} {completion : Completion}
    (h : p.completion? = some completion) (s : Stores) (q : Queue ChangeKey) :
    p.owed = p.queues?.toList ++ (p.step s q).2.2.owed := by
  cases p with
  | event c | update c keys => cases h
  | enqueue completion' keys => cases keys <;> rfl
  | done completion' => rfl

theorem queue_step (p : Publication) (s : Stores) (q : Queue ChangeKey) :
    (p.step s q).2.1 = p.queues?.elim q q.add := by
  cases p with
  | event c =>
      simp only [step]
      split <;> rfl
  | update c keys => rfl
  | enqueue completion keys => cases keys <;> rfl
  | done completion => rfl

end Publication

namespace Deployment

/-- Whether an event of a run is a step of the event on its way at an index. -/
def Event.delivers (i : Nat) : Event → Bool
  | .deliver j => j = i
  | _ => false

theorem Event.delivers_eq_true_iff {i : Nat} {e : Event} : e.delivers i = true ↔ e = .deliver i := by
  cases e with
  | deliver j => simp [Event.delivers]
  | _ => exact ⟨nofun, nofun⟩

variable {d : Deployment} {i : Nat} {p : Publication} {c : Change} {keys : List ChangeKey} {k : ChangeKey}
  {events : List Event}

theorem next_deliver (hi : d.publications[i]? = some p) :
    d.next (.deliver i) = { d.deliver i p with now := d.now + 1 } := by
  rw [Deployment.next, act, hi]
  rfl

theorem publications_next_deliver (hi : d.publications[i]? = some p) :
    (d.next (.deliver i)).publications[i]? = some (p.step d.stores d.service.queue).2.2 := by
  obtain ⟨hlt, -⟩ := List.getElem?_eq_some_iff.1 hi
  rw [next_deliver hi]
  exact List.getElem?_set_self hlt

theorem publications_next (hi : d.publications[i]? = some p) {e : Event} (he : e.delivers i ≠ true) :
    (d.next e).publications[i]? = some p := by
  obtain ⟨hlt, -⟩ := List.getElem?_eq_some_iff.1 hi
  cases e with
  | publish c => exact (List.getElem?_append_left hlt).trans hi
  | deliver j =>
      simp only [Deployment.next, act]
      cases d.publications[j]? with
      | none => exact hi
      | some p' => exact (List.getElem?_set_ne fun hj => he (decide_eq_true hj)).trans hi
  | work j m =>
      simp only [Deployment.next, act]
      cases d.workers[j]? with
      | none => exact hi
      | some w => exact (congrArg (·[i]?) (d.publications_note (.worker j))).trans hi
  | loop pick m =>
      simp only [Deployment.next, act]
      cases d.loop with
      | none => exact hi
      | some l => exact (congrArg (·[i]?) (d.publications_note .loop)).trans hi
  | expire x =>
      simp only [Deployment.next, act]
      split <;> exact hi
  | _ => exact hi

theorem exists_publication_run {P : Publication → Prop}
    (hstep : ∀ p s q, P p → P (Publication.step s q p).2.2) (hi : d.publications[i]? = some p) (hp : P p)
    (events : List Event) : ∃ p', (d.run events).publications[i]? = some p' ∧ P p' := by
  induction events generalizing d p with
  | nil => exact ⟨p, hi, hp⟩
  | cons e events ih =>
      by_cases he : e.delivers i = true
      · obtain rfl := Event.delivers_eq_true_iff.1 he
        exact ih (publications_next_deliver hi) (hstep p _ _ hp)
      · exact ih (publications_next hi he) hp

theorem exists_done_run (hi : d.publications[i]? = some p)
    (hsteps : p.remaining ≤ events.countP (Event.delivers i)) :
    ∃ completion, (d.run events).publications[i]? = some (.done completion) := by
  induction events generalizing d p with
  | nil =>
      obtain ⟨completion, rfl⟩ := Publication.exists_done_of_remaining (Nat.le_zero.1 hsteps)
      exact ⟨completion, hi⟩
  | cons e events ih =>
      rw [List.countP_cons] at hsteps
      by_cases he : e.delivers i = true
      · obtain rfl := Event.delivers_eq_true_iff.1 he
        rw [if_pos he] at hsteps
        refine ih (publications_next_deliver hi) ?_
        rw [Publication.remaining_step]
        omega
      · rw [if_neg he] at hsteps
        exact ih (publications_next hi he) hsteps

/-- The keys that the event on its way at an index queues in a run. -/
def queued (i : Nat) (d : Deployment) (events : List Event) : List ChangeKey :=
  shown next
    (fun d e => if e.delivers i then d.publications[i]?.bind Publication.queues? else none) d events

theorem queued_cons_deliver (hi : d.publications[i]? = some p) :
    d.queued i (.deliver i :: events) = p.queues?.toList ++ (d.next (.deliver i)).queued i events := by
  rw [queued, shown, if_pos (Event.delivers_eq_true_iff.2 rfl), hi, Option.bind_some, queued]

theorem queued_cons {e : Event} (he : e.delivers i ≠ true) :
    d.queued i (e :: events) = (d.next e).queued i events := by
  rw [queued, shown, if_neg he, queued]
  rfl

/-- Once the stores were changed, what an event queues in a run and what it still owes at its end is what it
owed. -/
theorem queued_append_owed {completion : Completion} (hi : d.publications[i]? = some p)
    (hp : p.completion? = some completion) (events : List Event) :
    ∃ p', (d.run events).publications[i]? = some p' ∧ p'.completion? = some completion ∧
      d.queued i events ++ p'.owed = p.owed := by
  induction events generalizing d p with
  | nil => exact ⟨p, hi, hp, rfl⟩
  | cons e events ih =>
      by_cases he : e.delivers i = true
      · obtain rfl := Event.delivers_eq_true_iff.1 he
        obtain ⟨p', hi', hp', howed⟩ := ih (publications_next_deliver hi) (Publication.completion?_step hp _ _)
        refine ⟨p', hi', hp', ?_⟩
        rw [queued_cons_deliver hi, List.append_assoc, howed, ← Publication.owed_eq_queues? hp]
      · rw [queued_cons he]
        exact ih (publications_next hi he) hp

/-- Whether a key is dirty at the end of a run, or a worker took it in the run. -/
def Added (d : Deployment) (events : List Event) (k : ChangeKey) : Prop :=
  k ∈ (d.run events).service.queue.dirty ∨ .handed k ∈ d.log events

theorem Added.cons {e : Event} (h : (d.next e).Added events k) : d.Added (e :: events) k :=
  h.imp_right (List.mem_append_right _)

theorem Seated.added_of_dirty (h : d.Seated) (hk : k ∈ d.service.queue.dirty) (events : List Event) :
    d.Added events k := by
  induction events generalizing d with
  | nil => exact .inl hk
  | cons e events ih =>
      rcases h.dirty_next hk e with hk | hentry
      · exact (ih (h.next e) hk).cons
      · refine .inr (List.mem_append_left _ ?_)
        rw [hentry]
        exact List.mem_singleton_self _

theorem Seated.added_of_queued (h : d.Seated) (hi : d.publications[i]? = some p)
    (hopen : ∀ a b, events = a ++ .deliver i :: b → (d.run a).service.queue.shuttingDown = false)
    (hk : k ∈ d.queued i events) : d.Added events k := by
  induction events generalizing d p with
  | nil => cases hk
  | cons e events ih =>
      have hrest : ∀ a b, events = a ++ .deliver i :: b →
          ((d.next e).run a).service.queue.shuttingDown = false :=
        fun a b hab => hopen (e :: a) b (congrArg (e :: ·) hab)
      by_cases he : e.delivers i = true
      · obtain rfl := Event.delivers_eq_true_iff.1 he
        rw [queued_cons_deliver hi, List.mem_append, Option.mem_toList] at hk
        rcases hk with hk | hk
        · refine ((h.next _).added_of_dirty ?_ events).cons
          rw [next_deliver hi]
          show k ∈ (p.step d.stores d.service.queue).2.1.dirty
          rw [Publication.queue_step, hk]
          exact Queue.mem_dirty_add.2 (.inr ⟨rfl, hopen [] events rfl⟩)
        · exact (ih (h.next _) (publications_next_deliver hi) hrest hk).cons
      · rw [queued_cons he] at hk
        exact (ih (h.next e) (publications_next hi he) hrest hk).cons

/-- Whether the event on its way at an index leaves the stores alone in a run. -/
def SparesStores (d : Deployment) (i : Nat) (events : List Event) : Prop :=
  ∀ a b, events = a ++ .deliver i :: b → ((d.run a).next (.deliver i)).stores = (d.run a).stores

theorem stores_next_deliver (hi : d.publications[i]? = some p)
    (hp : ∀ c keys, p ≠ .update c keys) : (d.next (.deliver i)).stores = d.stores := by
  rw [next_deliver hi]
  rcases p.stores_step d.stores d.service.queue with hsame | ⟨c, keys, rfl, -⟩
  · exact hsame
  · exact absurd rfl (hp c keys)

theorem sparesStores_of_completion {completion : Completion} (hi : d.publications[i]? = some p)
    (hp : p.completion? = some completion) (events : List Event) : d.SparesStores i events := by
  intro a b _
  obtain ⟨p', hi', hp'⟩ := exists_publication_run
    (P := fun p => p.completion? = some completion) (fun _ s q h => Publication.completion?_step h s q)
    hi hp a
  refine stores_next_deliver hi' ?_
  rintro c keys rfl
  cases hp'

theorem sparesStores_of_update (hi : d.publications[i]? = some p)
    (hend : (d.run events).publications[i]? = some (.update c keys)) : d.SparesStores i events := by
  rintro a b rfl
  obtain ⟨p', hi', -⟩ := exists_publication_run (P := fun _ => True) (fun _ _ _ _ => trivial) hi trivial a
  refine stores_next_deliver hi' ?_
  rintro c' keys' rfl
  -- after the change the event never comes back to before it
  have hcompletion : (Publication.step (d.run a).stores (d.run a).service.queue
      (.update c' keys')).2.2.completion? = some ((d.run a).stores.apply c').2 := rfl
  obtain ⟨p', hp', hlater, -⟩ := queued_append_owed (publications_next_deliver hi') hcompletion b
  rw [run_append] at hend
  obtain rfl := Option.some.inj (hp'.symm.trans hend)
  cases hlater

theorem exists_update {completion : Completion} (hkeys : c.keys? = some keys)
    (hi : d.publications[i]? = some p) (hp : p = .event c ∨ p = .update c keys)
    (hend : (d.run events).publications[i]? = some (.done completion)) :
    ∃ l₁ l₂, events = l₁ ++ .deliver i :: l₂ ∧
      (d.run l₁).publications[i]? = some (.update c keys) ∧ d.queued i l₁ = [] := by
  induction events generalizing d p with
  | nil =>
      obtain rfl := Option.some.inj (hi.symm.trans hend)
      rcases hp with hp | hp <;> cases hp
  | cons e events ih =>
      by_cases he : e.delivers i = true
      · obtain rfl := Event.delivers_eq_true_iff.1 he
        rcases hp with rfl | rfl
        · have hstep : (Publication.step d.stores d.service.queue (.event c)).2.2 = .update c keys := by
            rw [Publication.step, hkeys]
          obtain ⟨l₁, l₂, rfl, hupdate, hqueued⟩ := ih (publications_next_deliver hi) (.inr hstep) hend
          refine ⟨.deliver i :: l₁, l₂, rfl, hupdate, ?_⟩
          rw [queued_cons_deliver hi, hqueued]
          rfl
        · exact ⟨[], events, rfl, hi, rfl⟩
      · obtain ⟨l₁, l₂, rfl, hupdate, hqueued⟩ := ih (publications_next hi he) hp hend
        refine ⟨e :: l₁, l₂, rfl, hupdate, ?_⟩
        rw [queued_cons he, hqueued]

theorem unnamed_run (hkeys : c.keys? = none) (hi : d.publications[i]? = some (.event c))
    (events : List Event) :
    ∃ p, (d.run events).publications[i]? = some p ∧ (p = .event c ∨ p = .done .unnamed) := by
  refine exists_publication_run (fun p s q hp => .inr ?_) hi (.inl rfl) events
  rcases hp with rfl | rfl
  · rw [Publication.step, hkeys]
  · rfl

theorem next_unnamed (hkeys : c.keys? = none) (hi : d.publications[i]? = some p)
    (hp : p = .event c ∨ p = .done .unnamed) :
    (d.next (.deliver i)).stores = d.stores ∧
      (d.next (.deliver i)).service.queue = d.service.queue := by
  have hstep : p.step d.stores d.service.queue = (d.stores, d.service.queue, .done .unnamed) := by
    rcases hp with rfl | rfl
    · rw [Publication.step, hkeys]
    · rfl
  rw [next_deliver hi]
  simp only [deliver, hstep, and_self]

/-- An event whose objects have names, at a queue that is open at its steps: if it makes enough steps it
comes to its end; at one step it changes the stores as if it were applied to them directly, at no other does
it touch them, and from then on it queues its keys in order, each of which is dirty until a worker takes it.
They are the keys of all that it changes; a listing queues that of the cluster last. An event with an object
without a name ends and touches neither the stores nor the queue. -/
theorem event_published (config : Config) (workers : Nat) (period : Option Nat) {before later : List Event}
    (hi : ((boot config workers period).run before).publications[i]? = some (.event c))
    (hsteps : (Publication.event c).remaining ≤ later.countP (Event.delivers i))
    (hopen : ∀ a b, later = a ++ .deliver i :: b →
      (((boot config workers period).run before).run a).service.queue.shuttingDown = false) :
    let d := (boot config workers period).run before
    (c.Named → (d.run later).publications[i]? = some (.done .complete) ∧
      ∃ keys l₁ l₂, c.keys? = some keys ∧ later = l₁ ++ .deliver i :: l₂ ∧
        let d₁ := d.run l₁
        let d₂ := d₁.next (.deliver i)
        d₂.stores = (d₁.stores.apply c).1 ∧ d.SparesStores i l₁ ∧ d₂.SparesStores i l₂ ∧
          d.queued i l₁ = [] ∧ d₁.service.queue = d₂.service.queue ∧ d₂.queued i l₂ = keys ∧
          (∀ k ∈ keys, d₂.Added l₂ k) ∧
          (∀ kind, kind.isClusterScoped = true →
            d₂.stores.rbac.listCluster kind ≠ d₁.stores.rbac.listCluster kind → .cluster ∈ keys) ∧
          (∀ ns, d₂.stores.rbac.listNamespaced ns ≠ d₁.stores.rbac.listNamespaced ns ∨
            d₂.stores.namespaces.get? ns ≠ d₁.stores.namespaces.get? ns → .ns ns ∈ keys) ∧
          (∀ r objects removed, c = .reset r objects removed → keys.getLast? = some .cluster)) ∧
      (¬c.Named → (d.run later).publications[i]? = some (.done .unnamed) ∧
        ∀ a b, later = a ++ .deliver i :: b →
          ((d.run a).next (.deliver i)).stores = (d.run a).stores ∧
            ((d.run a).next (.deliver i)).service.queue = (d.run a).service.queue) := by
  intro d
  have hseated : d.Seated := seated_run config workers period before
  obtain ⟨completion, hend⟩ := exists_done_run hi hsteps
  constructor
  · intro hnamed
    obtain ⟨keys, hkeys⟩ := Option.isSome_iff_exists.1 (c.isSome_keys?.2 hnamed)
    obtain ⟨l₁, l₂, rfl, hupdate, hunqueued⟩ := exists_update hkeys hi (.inl rfl) hend
    -- the step that changes the stores leaves the event with its keys to queue
    have hstep : (Publication.step (d.run l₁).stores (d.run l₁).service.queue (.update c keys)).2.2 =
        .enqueue .complete keys :=
      congrArg (Publication.enqueue · keys) (Stores.completion_apply hnamed _)
    have hnext := next_deliver hupdate
    have henqueue := publications_next_deliver hupdate
    rw [hstep] at henqueue
    obtain ⟨p, hp, hcompletion, howed⟩ := queued_append_owed henqueue rfl l₂
    have hsplit : d.run (l₁ ++ .deliver i :: l₂) = ((d.run l₁).next (.deliver i)).run l₂ :=
      d.run_append l₁ _
    rw [hsplit] at hend ⊢
    obtain rfl := Option.some.inj (hp.symm.trans hend)
    obtain rfl := Option.some.inj hcompletion
    have hqueued : ((d.run l₁).next (.deliver i)).queued i l₂ = keys :=
      (List.append_nil _).symm.trans howed
    have hstores : ((d.run l₁).next (.deliver i)).stores = ((d.run l₁).stores.apply c).1 := by
      rw [hnext]
      rfl
    refine ⟨hend, keys, l₁, l₂, hkeys, rfl, hstores, sparesStores_of_update hi hupdate,
      sparesStores_of_completion henqueue rfl l₂, hunqueued, ?_, hqueued, ?_, ?_, ?_, ?_⟩
    · rw [hnext]
      rfl
    · intro k hk
      refine ((hseated.run l₁).next _).added_of_queued henqueue (fun a b hab => ?_) (hqueued ▸ hk)
      have hopen' := hopen (l₁ ++ .deliver i :: a) b (by rw [hab, List.append_assoc, List.cons_append])
      rwa [run_append] at hopen'
    · intro kind _ hne
      exact Stores.cluster_mem_keys hkeys (hstores ▸ hne)
    · intro ns hne
      exact Stores.ns_mem_keys hkeys (hstores ▸ hne)
    · rintro r objects removed rfl
      exact Change.getLast?_keys? hkeys
  · intro hnamed
    have hkeys : c.keys? = none := by
      rw [Option.eq_none_iff_forall_ne_some]
      intro keys hkeys
      exact hnamed (c.isSome_keys?.1 (Option.isSome_of_eq_some hkeys))
    obtain ⟨p, hp, hcases⟩ := unnamed_run hkeys hi later
    obtain rfl := Option.some.inj (hp.symm.trans hend)
    refine ⟨?_, ?_⟩
    · rcases hcases with hcase | hcase
      · cases hcase
      · rwa [hcase] at hend
    · rintro a b -
      obtain ⟨p', hp', hcases'⟩ := unnamed_run hkeys hi a
      exact next_unnamed hkeys hp' hcases'

/-- A listing of the role bindings: one there is, and one that is gone. -/
def listing : Change :=
  .reset (.rbac .roleBinding) [{ name := some "x", ns := some "a", uid := some "u" }] [("b", "y")]

/-- The worker takes the first key of the listing before the others are queued. -/
def listingEvents : List Event :=
  List.replicate 3 (.deliver 0) ++ List.replicate 2 (.work 0 (System.reviewing {} ["u"])) ++
    List.replicate 3 (.deliver 0)

theorem event_published_listing :
    let d := (boot {} 1 none).run [.publish listing]
    (d.run listingEvents).publications[0]? = some (.done .complete) ∧
      ∃ l₁ l₂, listingEvents = l₁ ++ .deliver 0 :: l₂ ∧
        ((d.run l₁).next (.deliver 0)).queued 0 l₂ = [.ns "a", .ns "b", .cluster] ∧
        ∀ k ∈ [.ns "a", .ns "b", .cluster], ((d.run l₁).next (.deliver 0)).Added l₂ k := by
  intro d
  have hi : d.publications[0]? = some (.event listing) := rfl
  have hsteps : (Publication.event listing).remaining ≤ listingEvents.countP (Event.delivers 0) := by
    decide
  have hopen : ∀ a b, listingEvents = a ++ .deliver 0 :: b →
      (d.run a).service.queue.shuttingDown = false := by
    intro a b hab
    refine ((seated_boot {} 1 none).run [.publish listing]).open_of_run (b := .deliver 0 :: b) ?_
    rw [← hab]
    decide
  have hnamed : listing.Named := by decide
  obtain ⟨hend, keys, l₁, l₂, hkeys, hsplit, -, -, -, -, -, hqueued, hadded, -⟩ :=
    (event_published {} 1 none hi hsteps hopen).1 hnamed
  obtain rfl : [.ns "a", .ns "b", .cluster] = keys := Option.some.inj hkeys
  exact ⟨hend, l₁, l₂, hsplit, hqueued, hadded⟩

end Deployment

end Visibility
