import Visibility.Proofs.Alone
import Visibility.Proofs.Cache.Audience

namespace Visibility

open ClusterHash (Computation Request)

def Moment.Any (_ : Moment) : Prop := True

namespace Alone

variable {σ τ : Type} {next : Moment → Cache → σ → Progress σ} {a : Alone σ}

theorem run_add (m n : Nat) (ms : Nat → Moment) (a : Alone σ) :
    run next (m + n) ms a = run next n (fun k => ms (m + k)) (run next m ms a) := by
  induction m generalizing ms a with
  | zero => simp only [Nat.zero_add, run]
  | succ m ih =>
      rw [Nat.succ_add, run, ih, run]
      simp only [Nat.succ_add]

theorem run_succ (n : Nat) (ms : Nat → Moment) (a : Alone σ) :
    run next (n + 1) ms a = (run next n ms a).step next (ms n) := run_add n 1 ms a

theorem Ends.exists_steps {post : Alone σ → Prop} (h : Ends next Moment.Any post a)
    (ms : Nat → Moment) : ∃ n, post (a.run next n ms) := h.exists_run fun _ => trivial

def map (f : σ → τ) (a : Alone σ) : Alone τ := ⟨a.cache, f a.phase, a.effects⟩

theorem run_map {next' : Moment → Cache → τ → Progress τ} (f : σ → τ)
    (h : ∀ m c p, next' m c (f p) = ⟨(next m c p).cache, f (next m c p).next, (next m c p).effect⟩)
    (n : Nat) (ms : Nat → Moment) (a : Alone σ) :
    run next' n ms (a.map f) = (run next n ms a).map f := by
  induction n generalizing ms a with
  | zero => rfl
  | succ n ih =>
      rw [run, run, ← ih]
      congr 1
      simp only [step, map, h]

end Alone

/-- So many steps of a call, with nothing in between. -/
def Call.alone (n : Nat) (ms : Nat → Moment) (c : Cache) (call : Call) : Alone Call :=
  Alone.run Call.step n ms ⟨c, call, []⟩

theorem Call.alone_refresh (n : Nat) (ms : Nat → Moment) (c : Cache) (r : Refresh) :
    Call.alone n ms c (.refresh r) = (Alone.run Refresh.step n ms ⟨c, r, []⟩).map .refresh :=
  Alone.run_map Call.refresh (fun _ _ _ => rfl) n ms ⟨c, r, []⟩

theorem Call.alone_pass (n : Nat) (ms : Nat → Moment) (c : Cache) (p : Pass.Phase) :
    Call.alone n ms c (.pass p) = (Alone.run Pass.Phase.step n ms ⟨c, p, []⟩).map .pass :=
  Alone.run_map Call.pass (fun _ _ _ => rfl) n ms ⟨c, p, []⟩

/-- A bound on the steps to the end of a computation. -/
def ClusterHash.Computation.remaining : Computation → Nat
  | enter => 5
  | readRolesVersion => 4
  | readBindingsVersion _ => 3
  | listRoles _ => 2
  | listBindings _ _ => 1
  | done _ => 0

theorem ClusterHash.Computation.done_or_remaining_lt (m : Moment) (h : ClusterHash)
    (c : Computation) :
    (∃ result, (c.step m h).2 = .done result) ∨ (c.step m h).2.remaining < c.remaining := by
  cases c with
  | enter =>
      rw [step]
      split
      · exact .inl ⟨_, rfl⟩
      · exact .inr (Nat.lt_succ_self _)
  | readRolesVersion => exact .inr (Nat.lt_succ_self _)
  | readBindingsVersion roles =>
      simp only [step]
      split
      · split
        · exact .inl ⟨_, rfl⟩
        · exact .inr (Nat.lt_succ_self _)
      · exact .inr (Nat.lt_succ_self _)
  | listRoles versions =>
      rw [step]
      split
      · exact .inr (Nat.lt_succ_self _)
      · exact .inl ⟨_, rfl⟩
  | listBindings versions roles =>
      rw [step]
      split <;> exact .inl ⟨_, rfl⟩
  | done result => exact .inl ⟨result, rfl⟩

/-- A bound on the steps to the end of a request. -/
def ClusterHash.Request.remaining : Request → Nat
  | compute c => c.remaining + 2
  | settle => 1
  | done _ => 0

theorem ClusterHash.Request.done_or_remaining_lt (m : Moment) (h : ClusterHash) (r : Request) :
    (∃ result, (r.step m h).2 = .done result) ∨ (r.step m h).2.remaining < r.remaining := by
  cases r with
  | compute c =>
      have hstep := c.done_or_remaining_lt m h
      rw [step]
      split
      · exact .inr (Nat.le_add_left 2 _)
      · exact .inl ⟨_, rfl⟩
      · rename_i h' c' hne hne' hc
        rw [hc] at hstep
        rcases hstep with ⟨result, hdone⟩ | hlt
        · exact absurd hdone (hne' result)
        · exact .inr (Nat.add_lt_add_right hlt 2)
  | settle => exact .inl ⟨_, rfl⟩
  | done result => exact .inl ⟨result, rfl⟩

namespace Refresh

/-- A bound on the steps that a refresh still takes, given the number of watchers. -/
def remaining (watchers : Nat) (r : Refresh) : Nat :=
  match r.phase with
  | .exists? => watchers + 16
  | .remove => watchers + 3
  | .hashCluster request => watchers + 8 + request.remaining
  | .hashNamespace _ => watchers + 7
  | .compare _ => watchers + 6
  | .ask _ => watchers + 5
  | .hear _ _ => watchers + 4
  | .commit _ _ => watchers + 3
  | .announce _ _ => watchers + 2
  | .notify left _ _ => left.length + 1
  | .done _ => 0

theorem remaining_step (m : Moment) (c : Cache) {r : Refresh} (hr : r.result? = none) :
    (r.step m c).next.remaining c.watchers.length < r.remaining c.watchers.length := by
  obtain ⟨ns, phase⟩ := r
  simp only [step]
  cases phase with
  | exists? | remove | compare hash | commit hash review =>
      simp only [Phase.step]
      repeat' split
      all_goals simp [remaining, ClusterHash.Request.start, ClusterHash.Request.remaining, ClusterHash.Computation.remaining]
  | hashCluster request =>
      have hstep := request.done_or_remaining_lt m c.clusterHash
      simp only [Phase.step]
      split
      · simp only [remaining]
        omega
      · simp only [remaining]
        omega
      · rename_i h' r' hne hne' hr'
        rw [hr'] at hstep
        rcases hstep with ⟨result, hdone⟩ | hlt
        · cases result with
          | ok hash => exact absurd hdone (hne hash)
          | error e => exact absurd hdone (hne' e)
        · exact Nat.add_lt_add_left hlt _
  | hashNamespace cluster =>
      simp only [Phase.step]
      split <;> simp [remaining]
  | hear hash answer =>
      cases answer with
      | error reason => simp [Phase.step, remaining]
      | ok review =>
          simp only [Phase.step]
          split <;> simp [remaining]
  | ask hash | announce users groups => simp [Phase.step, remaining]
  | notify watchers users groups => cases watchers <;> simp [Phase.step, remaining]
  | done result => cases hr

theorem returns (a : Alone Refresh) :
    Alone.Ends step Moment.Any (fun b => b.phase.result?.isSome = true) a := by
  generalize hn : a.phase.remaining a.cache.watchers.length = n
  induction n using Nat.strongRecOn generalizing a with
  | ind n ih =>
      cases hr : a.phase.result? with
      | some result => exact .now (by rw [hr]; rfl)
      | none =>
          refine .later fun m _ => ih _ ?_ _ rfl
          have hlt := remaining_step m a.cache hr
          rw [← hn]
          simp only [Alone.step, watchers_step]
          exact hlt

end Refresh

namespace Pass

theorem run_refresh (plan : Plan) (left : List Target) {a : Alone Refresh}
    (h : Alone.Ends Refresh.step Moment.Any (fun b => b.phase.result?.isSome = true) a)
    (ha : a.phase.result? = none) (ms : Nat → Moment) :
    ∃ d, 0 < d ∧ (a.run Refresh.step d ms).phase.result?.isSome = true ∧
      Alone.run Phase.step d ms ⟨a.cache, .refresh plan left a.phase, a.effects⟩ =
        ⟨(a.run Refresh.step d ms).cache, visit plan left, (a.run Refresh.step d ms).effects⟩ := by
  induction h generalizing ms with
  | now hp =>
      rw [ha] at hp
      cases hp
  | @later a h ih =>
      cases hresult : (a.step Refresh.step (ms 0)).phase.result? with
      | some result =>
          refine ⟨1, Nat.one_pos, by rw [Alone.run, Alone.run, hresult]; rfl, ?_⟩
          simp only [Alone.step] at hresult
          simp only [Alone.run, Alone.step, Phase.step, hresult]
      | none =>
          obtain ⟨d, hpos, hsome, hrun⟩ := ih (ms 0) trivial hresult fun k => ms (k + 1)
          refine ⟨d + 1, Nat.succ_pos d, hsome, ?_⟩
          simp only [Alone.step] at hresult
          simp only [Alone.run, Alone.step, Phase.step, hresult]
          exact hrun

theorem result?_start (t : Target) : (Refresh.start t.1 t.2).result? = none := by
  obtain ⟨ns, hash⟩ := t
  cases hash <;> rfl

theorem exists_visit (plan : Plan) (before rest : List Target) (ms : Nat → Moment) (c : Cache)
    (es : List Effect) :
    ∃ j c' es', Alone.run Phase.step j ms ⟨c, visit plan (before ++ rest), es⟩ =
      ⟨c', visit plan rest, es'⟩ := by
  induction before generalizing ms c es with
  | nil => exact ⟨0, c, es, rfl⟩
  | cons t before ih =>
      obtain ⟨d, -, -, hrun⟩ := run_refresh plan (before ++ rest)
        (Refresh.returns ⟨c, .start t.1 t.2, es⟩) (result?_start t) ms
      obtain ⟨j, c', es', hj⟩ := ih (fun k => ms (d + k)) _ _
      refine ⟨d + j, c', es', ?_⟩
      rw [Alone.run_add]
      exact (congrArg _ hrun).trans hj

/-- The refresh of a target, from its start to a result, is a stretch of the run of a pass, after which the
pass goes on with the targets that are left. -/
def CarriesOut (plan : Plan) (t : Target) (left : List Target) (ms : Nat → Moment) (c₀ : Cache) : Prop :=
  ∃ j d c es, Pass.alone j ms c₀ = ⟨c, visit plan (t :: left), es⟩ ∧
    let b := Alone.run Refresh.step d (fun k => ms (j + k)) ⟨c, .start t.1 t.2, es⟩
    b.phase.result?.isSome = true ∧ Pass.alone (j + d) ms c₀ = ⟨b.cache, visit plan left, b.effects⟩

/-- A pass carries out its plan, whatever comes out of the refreshes. -/
theorem carriesOut {plan : Plan} {before : List Target} {t : Target} {left : List Target}
    {ms : Nat → Moment} {c₀ c : Cache} {es : List Effect} {k : Nat}
    (hk : Pass.alone k ms c₀ = ⟨c, visit plan (before ++ t :: left), es⟩) :
    CarriesOut plan t left ms c₀ := by
  obtain ⟨j, c', es', hj⟩ := exists_visit plan before (t :: left) (fun i => ms (k + i)) c es
  obtain ⟨d, -, hsome, hrun⟩ := run_refresh plan left
    (Refresh.returns ⟨c', .start t.1 t.2, es'⟩) (result?_start t) fun i => ms (k + j + i)
  have hstart : Pass.alone (k + j) ms c₀ = ⟨c', visit plan (t :: left), es'⟩ := by
    rw [Pass.alone, Alone.run_add]
    exact (congrArg _ hk).trans hj
  refine ⟨k + j, d, c', es', hstart, hsome, ?_⟩
  rw [Pass.alone, Alone.run_add]
  exact (congrArg _ hstart).trans hrun

theorem returns_visit (plan : Plan) (ts : List Target) (c : Cache) (es : List Effect) :
    Alone.Ends Phase.step Moment.Any (fun b => b.phase = .done (.ok plan.outcome))
      ⟨c, visit plan ts, es⟩ := by
  induction ts generalizing c es with
  | nil => exact .later fun m _ => .now rfl
  | cons t ts ih =>
      refine ends_refresh ((Refresh.returns ⟨c, .start t.1 t.2, es⟩).mono ?_) (result?_start t)
      exact fun b hb => ⟨hb, ih b.cache b.effects⟩

/-- The pass has ended, in whatever way. -/
def Returned (a : Alone Phase) : Prop := ∃ result, a.phase = .done result

theorem returns_compare (cluster : String) (full : Bool) (live : Option (Table (Option String)))
    (c : Cache) (es : List Effect) :
    Alone.Ends Phase.step Moment.Any Returned ⟨c, .compare cluster full live, es⟩ :=
  .later fun _ _ => (returns_visit _ _ _ _).mono fun _ hb => ⟨_, hb⟩

theorem returns_hashNext (cluster : String) (full : Bool) (left : List String)
    (live : Table (Option String)) (c : Cache) (es : List Effect) :
    Alone.Ends Phase.step Moment.Any Returned ⟨c, hashNext cluster full left live, es⟩ := by
  induction left generalizing live c es with
  | nil => exact returns_compare cluster full (some live) c es
  | cons ns left ih => exact .later fun m _ => ih _ _ _

theorem returns_listNames (cluster : String) (full : Bool) (c : Cache) (es : List Effect) :
    Alone.Ends Phase.step Moment.Any Returned ⟨c, .listNames cluster full, es⟩ := by
  refine .later fun m _ => ?_
  rw [Alone.step, Phase.step]
  split
  · exact returns_hashNext _ _ _ _ _ _
  · exact returns_compare _ _ _ _ _

theorem returns_hashCluster (computation : Computation) (c : Cache) (es : List Effect) :
    Alone.Ends Phase.step Moment.Any Returned ⟨c, .hashCluster computation, es⟩ := by
  generalize hn : computation.remaining = n
  induction n using Nat.strongRecOn generalizing computation c es with
  | ind n ih =>
      refine .later fun m _ => ?_
      have hstep := computation.done_or_remaining_lt m c.clusterHash
      rw [Alone.step, Phase.step]
      split
      · exact returns_listNames _ _ _ _
      · exact .now ⟨_, rfl⟩
      · rename_i h' computation' hne hne' hc
        rw [hc] at hstep
        rcases hstep with ⟨result, hdone⟩ | hlt
        · cases result with
          | ok hash => exact absurd hdone (hne hash)
          | error e => exact absurd hdone (hne' e)
        · exact ih _ (hn ▸ hlt) _ _ _ rfl

theorem returns_enter (c : Cache) (es : List Effect) :
    Alone.Ends Phase.step Moment.Any Returned ⟨c, .enter, es⟩ := by
  refine .later fun m _ => ?_
  rw [Alone.step, Phase.step]
  split
  · exact .now ⟨_, rfl⟩
  · exact returns_hashCluster _ _ _

end Pass

theorem Launch.exists_ended (l : Launch) (ms : Nat → Moment) (c : Cache) :
    ∃ n, (Call.alone n ms c l.call).phase.ended = true := by
  cases l with
  | refresh ns hash =>
      obtain ⟨n, hn⟩ := (Refresh.returns ⟨c, .start ns hash, []⟩).exists_steps ms
      refine ⟨n, ?_⟩
      rw [Launch.call, Call.alone_refresh]
      exact hn
  | pass =>
      obtain ⟨n, result, hn⟩ := (Pass.returns_enter c []).exists_steps ms
      refine ⟨n, ?_⟩
      rw [Launch.call, Call.alone_pass, Alone.map, hn]
      rfl

end Visibility
