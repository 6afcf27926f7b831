import Mathlib.Data.List.Chain
import Visibility.Proofs.Cache.Audience
import Visibility.Proofs.Cache.Order

namespace Visibility

/-- Whether a refresh has not begun, waits for the reviewer or has ended. One that is told a hash begins by
comparing it. -/
def Refresh.rests (r : Refresh) : Bool :=
  match r.phase with
  | .exists? | .compare _ | .hear _ _ | .done _ => true
  | _ => false

def Pass.Phase.rests : Phase → Bool
  | enter | done _ | refresh _ _ ⟨_, .hear _ _⟩ => true
  | _ => false

/-- Whether a call has not begun, waits for the reviewer, or has ended. -/
def Call.rests : Call → Bool
  | refresh r => r.rests
  | pass p => p.rests

theorem Call.notice?_of_rests {call : Call} (h : call.rests = true) : call.notice? = none := by
  cases call with
  | refresh r =>
      obtain ⟨ns, phase⟩ := r
      cases phase with
      | announce users groups | notify watchers users groups => cases h
      | _ => rfl
  | pass p =>
      cases p with
      | refresh plan left r =>
          obtain ⟨ns, phase⟩ := r
          cases phase with
          | announce users groups | notify watchers users groups => cases h
          | _ => rfl
      | _ => rfl

namespace System

/-- The call that makes a step. -/
def Event.mover? : Event → Option Nat
  | move i _ => some i
  | _ => none

theorem Event.eq_move_of_mover? {e : Event} {i : Nat} (h : e.mover? = some i) :
    ∃ m, e = .move i m := by
  cases e with
  | move j m =>
      cases h
      exact ⟨m, rfl⟩
  | _ => cases h

/-- While a call does not rest, nothing happens but its own steps. -/
def atReviews (s : System) (e : Event) : Prop :=
  ∀ x ∈ s.attempts.zipIdx, x.1.call.rests = true ∨ e.mover? = some x.2

instance (s : System) (e : Event) : Decidable (s.atReviews e) :=
  inferInstanceAs (Decidable (∀ x ∈ s.attempts.zipIdx, _))

theorem atReviews.mover?_eq {s : System} {e : Event} {i : Nat} {n : Notice} (h : s.atReviews e)
    (hi : s.notice? i = some n) : e.mover? = some i := by
  obtain ⟨a, ha, hn⟩ := Option.bind_eq_some_iff.1 hi
  refine (h (a, i) (List.mk_mem_zipIdx_iff_getElem?.2 ha)).resolve_left fun hrests => ?_
  rw [Call.notice?_of_rests hrests] at hn
  cases hn

/-- Every event of a run is one that is allowed at its time. -/
def Follows (allowed : System → Event → Prop) (s : System) : List Event → Prop
  | [] => True
  | e :: events => allowed s e ∧ Follows allowed (s.next e) events

instance decidableFollows (allowed : System → Event → Prop) [∀ s e, Decidable (allowed s e)] :
    ∀ (s : System) (events : List Event), Decidable (Follows allowed s events)
  | _, [] => inferInstanceAs (Decidable True)
  | s, e :: events =>
      have := decidableFollows allowed (s.next e) events
      inferInstanceAs (Decidable (allowed s e ∧ _))

theorem follows_append {allowed : System → Event → Prop} {s : System} {events events' : List Event} :
    Follows allowed s (events ++ events') ↔
      Follows allowed s events ∧ Follows allowed (s.run events) events' := by
  induction events generalizing s with
  | nil => exact (iff_of_eq (true_and _)).symm
  | cons e events ih => exact (and_congr_right fun _ => ih).trans and_assoc.symm

theorem follows_concat {allowed : System → Event → Prop} {s : System} {events : List Event}
    {e : Event} : Follows allowed s (events ++ [e]) ↔
      Follows allowed s events ∧ allowed (s.run events) e :=
  follows_append.trans (and_congr_right fun _ => iff_of_eq (and_true _))

theorem Follows.take {allowed : System → Event → Prop} {s : System} {events : List Event}
    (h : Follows allowed s events) (k : Nat) : Follows allowed s (events.take k) := by
  rw [← List.take_append_drop k events, follows_append] at h
  exact h.1

/-- An event leaves the system with a property, unless no call was made so far. -/
def keeps (p : System → Prop) (s : System) (e : Event) : Prop :=
  (s.next e).attempts = [] ∨ p (s.next e)

instance (p : System → Prop) [DecidablePred p] (s : System) (e : Event) : Decidable (keeps p s e) :=
  have : Decidable ((s.next e).attempts = []) := decidable_of_iff _ List.isEmpty_iff
  inferInstanceAs (Decidable (_ ∨ _))

theorem Follows.keeps_run {p : System → Prop} {events : List Event} (h : Follows (keeps p) {} events)
    (hcalls : (run {} events).attempts ≠ []) : p (run {} events) := by
  cases events using List.reverseRecOn with
  | nil => exact absurd rfl hcalls
  | append_singleton events e =>
      rw [run_concat] at hcalls ⊢
      exact (follows_concat.1 h).2.resolve_left hcalls

/-- What others can see of an event, with the index of the call that made the step. -/
def deed? (s : System) (e : Event) : Option (Nat × Effect) :=
  e.mover?.bind fun i => (s.effect? e).map (i, ·)

/-- What can be seen of the calls in a run, in order. -/
def trail (s : System) : List Event → List (Nat × Effect)
  | [] => []
  | e :: events => (s.deed? e).toList ++ trail (s.next e) events

/-- The notifications of a run, in order. -/
def notices (s : System) (events : List Event) : List (Nat × Effect) :=
  (s.trail events).filter (·.2.isNotice)

/-- The notifications that an event gives rise to, with the index of the call that has to make them. -/
def dues (s : System) (e : Event) : List (Nat × Effect) :=
  e.mover?.elim [] fun i => (s.cache.dues (s.next e).cache (s.effect? e)).map (i, ·)

/-- The notifications that the events of a run give rise to. -/
def owed (s : System) : List Event → List (Nat × Effect)
  | [] => []
  | e :: events => s.dues e ++ owed (s.next e) events

/-- The audiences of a namespace that a watcher was told, in order. -/
def told (w ns : String) (l : List (Nat × Effect)) : List (NameSet × NameSet) :=
  l.filterMap fun
    | (_, .notified w' ns' users groups) => if w' = w ∧ ns' = ns then some (users, groups) else none
    | _ => none

/-- What a watcher knows of a namespace that takes every notification for the present state. -/
def heard (w ns : String) (l : List (Nat × Effect)) : NameSet × NameSet :=
  (told w ns l).getLast?.getD (∅, ∅)

/-- The watcher is registered, and not twice. -/
def registeredOnce (w : String) (s : System) : Prop := s.cache.watchers.count w = 1

instance (w : String) : DecidablePred (registeredOnce w) := fun _ =>
  inferInstanceAs (Decidable (_ = _))

variable {s : System} {events : List Event} {e : Event} {w : String}

theorem notices_concat (s : System) (events : List Event) (e : Event) :
    s.notices (events ++ [e]) = s.notices events ++
      ((s.run events).deed? e).toList.filter (·.2.isNotice) := by
  rw [notices, notices, ← List.filter_append]
  congr 1
  induction events generalizing s with
  | nil => exact List.append_nil _
  | cons e' events ih =>
      rw [List.cons_append, trail, ih, trail, List.append_assoc]
      rfl

theorem owed_concat (s : System) (events : List Event) (e : Event) :
    s.owed (events ++ [e]) = s.owed events ++ (s.run events).dues e := by
  induction events generalizing s with
  | nil => exact List.append_nil _
  | cons e' events ih =>
      rw [List.cons_append, owed, ih, owed, List.append_assoc]
      rfl

theorem deed?_eq_none (h : s.effect? e = none) : s.deed? e = none := by
  rw [deed?, h]
  cases e.mover? <;> rfl

theorem filter_deed?_move (s : System) (i : Nat) (m : Moment) :
    (s.deed? (.move i m)).toList.filter (·.2.isNotice) =
      ((s.effect? (.move i m)).toList.filter (·.isNotice)).map (i, ·) := by
  rw [deed?, Event.mover?, Option.bind_some]
  cases s.effect? (.move i m) with
  | none => rfl
  | some e => cases e <;> rfl

theorem dues_eq_nil (h : ∀ ns, (s.next e).cache.audience ns = s.cache.audience ns) :
    s.dues e = [] := by
  rw [dues, Cache.dues_eq_nil h]
  cases e.mover? <;> rfl

theorem told_append (w ns : String) (l l' : List (Nat × Effect)) :
    told w ns (l ++ l') = told w ns l ++ told w ns l' := List.filterMap_append

/-- The notifications of a run, with those that the call with an index has still to make, are those that the
events of the run give rise to; no other call has any to make. -/
structure Accounted (events : List Event) (i : Nat) : Prop where
  others : ∀ j, j ≠ i → (run {} events).notice? j = none
  notices_eq : notices {} events ++ (((run {} events).notice? i).elim []
    (Notice.effects (run {} events).cache.watchers)).map (i, ·) = owed {} events

theorem Accounted.of_quiet {i : Nat} (h : Accounted events i) (hquiet : (run {} events).Quiet)
    (j : Nat) : Accounted events j := by
  refine ⟨fun k _ => hquiet k, ?_⟩
  have heq := h.notices_eq
  rw [hquiet i] at heq
  rw [hquiet j]
  exact heq

theorem Accounted.concat {i : Nat} (h : Accounted events i) (he : (run {} events).atReviews e) :
    ∃ j, Accounted (events ++ [e]) j := by
  rcases (run {} events).notice_cases e with ⟨j, m, a, rfl, hj⟩ | ⟨hmove, heffect, hnotice, hsame⟩
  -- While a call has something to tell only its own steps happen, so the account can be its own.
  · have hacc : Accounted events j := by
      cases hi : (run {} events).notice? i with
      | none =>
          refine h.of_quiet (fun k => ?_) j
          by_cases hk : k = i
          · rw [hk, hi]
          · exact h.others k hk
      | some n =>
          have hij := he.mover?_eq hi
          cases hij
          exact h
    obtain ⟨hstep, hother, hwatchers⟩ := notice_move hj m
    refine ⟨j, fun k hk => ?_, ?_⟩
    · rw [run_concat, hother k hk, hacc.others k hk]
    · have hdues := congrArg (List.map (j, ·)) (hstep.dues_eq hwatchers)
      rw [List.map_append, List.map_append] at hdues
      rw [notices_concat, owed_concat, run_concat, ← hacc.notices_eq, filter_deed?_move,
        List.append_assoc, List.append_assoc, ← hdues]
      rfl
  · have hidle : (run {} events).notice? i = none := by
      rw [Option.eq_none_iff_forall_ne_some]
      intro n hn
      obtain ⟨a, ha, -⟩ := Option.bind_eq_some_iff.1 hn
      obtain ⟨m, rfl⟩ := Event.eq_move_of_mover? (he.mover?_eq hn)
      rw [hmove i m rfl] at ha
      cases ha
    refine ⟨i, fun k hk => ?_, ?_⟩
    · rw [run_concat, hnotice, h.others k hk]
    · have heq := h.notices_eq
      rw [hidle] at heq
      rw [notices_concat, owed_concat, run_concat, hnotice, hidle, ← heq, deed?_eq_none heffect,
        dues_eq_nil hsame]
      simp

theorem accounted (h : Follows atReviews {} events) : ∃ i, Accounted events i := by
  induction events using List.reverseRecOn with
  | nil => exact ⟨0, fun _ _ => rfl, rfl⟩
  | append_singleton events e ih =>
      rw [follows_concat] at h
      obtain ⟨i, hi⟩ := ih h.1
      exact hi.concat h.2

theorem told_dues (w ns : String) (i : Nat) (watchers : List String) (k : String)
    (x : NameSet × NameSet) :
    told w ns ((watchers.map fun v => Effect.notified v k x.1 x.2).map (i, ·)) =
      if k = ns then List.replicate (watchers.count w) x else [] := by
  induction watchers with
  | nil => simp [told]
  | cons v watchers ih =>
      simp only [told, List.map_cons, List.filterMap_cons] at ih ⊢
      rw [ih]
      by_cases hk : k = ns
      · by_cases hv : v = w
        · simp [hk, hv, List.replicate_succ]
        · simp [hk, hv]
      · simp [hk]

theorem dues_cases (s : System) (e : Event) :
    (s.dues e = [] ∧ ∀ ns, (s.next e).cache.audience ns = s.cache.audience ns) ∨
    ∃ i ns, s.attempts ≠ [] ∧
      s.dues e = (s.cache.watchers.map fun w => Effect.notified w ns
        ((s.next e).cache.audience ns).1 ((s.next e).cache.audience ns).2).map (i, ·) ∧
      (s.next e).cache.audience ns ≠ s.cache.audience ns ∧
      ∀ k, k ≠ ns → (s.next e).cache.audience k = s.cache.audience k := by
  rcases s.notice_cases e with ⟨i, m, a, rfl, hi⟩ | ⟨-, -, -, h⟩
  · obtain ⟨hstep, -, -⟩ := notice_move hi m
    rcases hstep.changes_or with ⟨ns, hwritten, hne, hother, -, -⟩ | h
    · refine .inr ⟨i, ns, ?_, ?_, hne, hother⟩
      · intro hnil
        rw [hnil] at hi
        cases hi
      · rw [dues, Event.mover?, Option.elim_some, Cache.dues, hwritten, Option.elim_some, if_neg hne]
    · exact .inl ⟨dues_eq_nil h, h⟩
  · exact .inl ⟨dues_eq_nil h, h⟩

/-- What the events of a run give a watcher to hear of a namespace is one audience after the other, each
unlike the last, and the last one is the present audience. -/
theorem told_owed (h : Follows (keeps (registeredOnce w)) {} events) (ns : String) :
    ((∅, ∅) :: told w ns (owed {} events)).IsChain (· ≠ ·) ∧
      heard w ns (owed {} events) = (run {} events).cache.audience ns := by
  induction events using List.reverseRecOn with
  | nil => exact ⟨List.isChain_singleton _, rfl⟩
  | append_singleton events e ih =>
      rw [follows_concat] at h
      obtain ⟨hchain, hheard⟩ := ih h.1
      rw [heard, owed_concat, told_append, run_concat]
      rcases (run {} events).dues_cases e with ⟨hdues, hsame⟩ | ⟨i, k, hcalls, hdues, hne, hother⟩
      · rw [hdues, hsame]
        simp only [told, List.filterMap_nil, List.append_nil]
        exact ⟨hchain, hheard⟩
      · have honce : (run {} events).cache.watchers.count w = 1 := h.1.keeps_run hcalls
        rw [hdues, told_dues, honce]
        by_cases hk : k = ns
        · subst hk
          rw [if_pos rfl, List.replicate_one]
          constructor
          · rw [← List.cons_append, List.isChain_append]
            refine ⟨hchain, List.isChain_singleton _, fun x hx y hy => ?_⟩
            rw [List.getLast?_cons, Option.mem_some_iff] at hx
            rw [List.head?_cons, Option.mem_some_iff] at hy
            rw [← hx, ← hy]
            exact fun heq => hne (heq.symm.trans hheard)
          · rw [List.getLast?_append, List.getLast?_singleton]
            rfl
        · rw [if_neg hk, List.append_nil, hother ns (Ne.symm hk)]
          exact ⟨hchain, hheard⟩

/-- How many steps it takes to tell all watchers. -/
def steps (watchers : List String) : Option Notice → Nat
  | none => 0
  | some ⟨_, _, none⟩ => watchers.length + 2
  | some ⟨_, _, some left⟩ => left.length + 1

theorem steps_step {c c' : Cache} {n : Notice} {after : Option Notice} {e : Option Effect}
    (h : Notice.Step c (some n) e c' after) :
    steps c'.watchers after + 1 = steps c.watchers (some n) := by
  cases h with
  | look ns x | tell ns x w left | finish ns x => rfl

theorem quiet_run {i : Nat} (hother : ∀ j, j ≠ i → s.notice? j = none) {ms : List Moment}
    (hms : ms.length = steps s.cache.watchers (s.notice? i)) : (s.run (ms.map (.move i))).Quiet := by
  induction ms generalizing s with
  | nil =>
      intro j
      by_cases hj : j = i
      · subst hj
        cases hn : s.notice? j with
        | none => exact hn
        | some n =>
            rw [hn] at hms
            obtain ⟨ns, x, left⟩ := n
            cases left <;> cases hms
      · exact hother j hj
  | cons m ms ih =>
      cases hn : s.notice? i with
      | none =>
          rw [hn] at hms
          cases hms
      | some n =>
          obtain ⟨a, ha, -⟩ := Option.bind_eq_some_iff.1 hn
          obtain ⟨hstep, hothers, -⟩ := notice_move ha m
          rw [hn] at hms hstep
          have hsteps := steps_step hstep
          refine ih (fun j hj => (hothers j hj).trans (hother j hj)) ?_
          rw [List.length_cons] at hms
          omega

/-- In a run in which calls give way only when they wait for the reviewer, telling comes to an end; the
notifications are then those of the changes, one for each registration, and a watcher that was registered once
all the time knows every audience, and never heard the same of a namespace twice in a row. -/
theorem notifications_exact (h : Follows atReviews {} events) :
    (∃ i n, ∀ ms : List Moment, ms.length = n → ((run {} events).run (ms.map (.move i))).Quiet) ∧
    ((run {} events).Quiet → notices {} events = owed {} events) ∧
    ∀ w, Follows (keeps (registeredOnce w)) {} events → ∀ ns,
      ((∅, ∅) :: told w ns (notices {} events)).IsChain (· ≠ ·) ∧
      ((run {} events).Quiet → heard w ns (notices {} events) = (run {} events).cache.audience ns) := by
  obtain ⟨i, hacc⟩ := accounted h
  have heq := hacc.notices_eq
  have hquiet : (run {} events).Quiet → notices {} events = owed {} events := by
    intro hquiet
    rwa [hquiet i, Option.elim_none, List.map_nil, List.append_nil] at heq
  refine ⟨⟨i, _, fun ms hms => quiet_run hacc.others hms⟩, hquiet, fun w hw ns => ?_⟩
  obtain ⟨hchain, hheard⟩ := told_owed hw ns
  constructor
  · rw [← heq, told_append, ← List.cons_append] at hchain
    exact hchain.left_of_append
  · intro hq
    rw [hquiet hq, hheard]

/-- Two watchers are there, one of them twice. A refresh asks about a namespace; while the reviewer thinks, a
binding comes in and another refresh asks and commits; then the first one commits, and at last the namespace is
deleted. -/
def watchedEvents : List Event :=
  [.watch "w", .watch "v", .watch "v", .change (.apply .namespaces { name := some "a" }),
    .launch (.refresh "a" none)] ++ List.replicate 9 (.move 0 (reviewing {} ["old"])) ++
    [.change (.apply (.rbac .roleBinding)
      { name := some "b", ns := some "a", uid := some "x", resourceVersion := some "1" }),
    .launch (.refresh "a" none)] ++ List.replicate 14 (.move 1 (reviewing {} ["new"])) ++
    List.replicate 7 (.move 0 (reviewing {} ["new"])) ++
    [.change (.delete .namespaces "" "a"), .launch (.refresh "a" none)] ++
    List.replicate 7 (.move 2 (reviewing {} []))

theorem notifications_exact_watched :
    Follows atReviews {} watchedEvents ∧ Follows (keeps (registeredOnce "w")) {} watchedEvents ∧
      notices {} watchedEvents = owed {} watchedEvents ∧
      (notices {} watchedEvents).length = 9 ∧
      told "w" "a" (notices {} watchedEvents) =
        [(NameSet.ofList ["new"], ∅), (NameSet.ofList ["old"], ∅), (∅, ∅)] ∧
      heard "w" "a" (notices {} watchedEvents) = (run {} watchedEvents).cache.audience "a" := by
  have hreviews : Follows atReviews {} watchedEvents := by decide +kernel
  have honce : Follows (keeps (registeredOnce "w")) {} watchedEvents := by decide +kernel
  have hidle : (run {} watchedEvents).Idle := by
    rw [Idle]
    decide +kernel
  obtain ⟨-, hnotices, hwatchers⟩ := notifications_exact hreviews
  refine ⟨hreviews, honce, hnotices hidle.quiet, ?_, ?_, (hwatchers "w" honce "a").2 hidle.quiet⟩
  · decide +kernel
  · decide +kernel

end System

end Visibility
