import Visibility.Proofs.Cache.Locks

namespace Visibility

/-- A call without others: the cache, where the call is, and what could be seen of it so far. -/
structure Alone (σ : Type) where
  cache : Cache
  phase : σ
  effects : List Effect := []

namespace Effect

/-- The namespaces that the reviewer was asked about, once for each time. -/
def asks : List Effect → List String
  | [] => []
  | asked ns :: es => ns :: asks es
  | _ :: es => asks es

@[simp] theorem asks_append (es es' : List Effect) : asks (es ++ es') = asks es ++ asks es' := by
  induction es with
  | nil => rfl
  | cons e es ih => cases e <;> simp [asks, ih]

end Effect

namespace Alone

variable {σ : Type} {next : Moment → Cache → σ → Progress σ}

def step (next : Moment → Cache → σ → Progress σ) (a : Alone σ) (m : Moment) : Alone σ :=
  let p := next m a.cache a.phase
  ⟨p.cache, p.next, a.effects ++ p.effect.toList⟩

/-- Some steps of a call, each at its own moment. -/
def run (next : Moment → Cache → σ → Progress σ) : Nat → (Nat → Moment) → Alone σ → Alone σ
  | 0, _, a => a
  | n + 1, ms, a => run next n (fun k => ms (k + 1)) (a.step next (ms 0))

/-- Whatever good moments its steps find, a call comes to where the condition holds. -/
inductive Ends (next : Moment → Cache → σ → Progress σ) (good : Moment → Prop)
    (post : Alone σ → Prop) : Alone σ → Prop where
  | now {a : Alone σ} : post a → Ends next good post a
  | later {a : Alone σ} :
      (∀ m, good m → Ends next good post (a.step next m)) → Ends next good post a

variable {good : Moment → Prop} {post post' : Alone σ → Prop} {a : Alone σ}

theorem Ends.trans (h : Ends next good post a) (hpost : ∀ b, post b → Ends next good post' b) :
    Ends next good post' a := by
  induction h with
  | now hp => exact hpost _ hp
  | later _ ih => exact .later ih

theorem Ends.step {c : Cache} {p : σ} {es : List Effect} (c' : Cache) (p' : σ) (e : Option Effect)
    (hstep : ∀ m, good m → next m c p = ⟨c', p', e⟩)
    (h : Ends next good post ⟨c', p', es ++ e.toList⟩) : Ends next good post ⟨c, p, es⟩ := by
  refine .later fun m hm => ?_
  rw [Alone.step, hstep m hm]
  exact h

theorem Ends.silent {c : Cache} {p : σ} {es : List Effect} (c' : Cache) (p' : σ)
    (hstep : ∀ m, good m → next m c p = ⟨c', p', none⟩)
    (h : Ends next good post ⟨c', p', es⟩) : Ends next good post ⟨c, p, es⟩ :=
  .step c' p' none hstep (by rwa [Option.toList_none, List.append_nil])

theorem Ends.mono (h : Ends next good post a) (hpost : ∀ b, post b → post' b) :
    Ends next good post' a := h.trans fun b hb => .now (hpost b hb)

theorem Ends.exists_run (h : Ends next good post a) {ms : Nat → Moment} (hms : ∀ k, good (ms k)) :
    ∃ n, post (a.run next n ms) := by
  induction h generalizing ms with
  | now hp => exact ⟨0, hp⟩
  | later _ ih =>
      obtain ⟨n, hn⟩ := ih (ms 0) (hms 0) fun k => hms (k + 1)
      exact ⟨n + 1, hn⟩

theorem Ends.post_of_still (h : Ends next good post a) (hstill : ∀ m, a.step next m = a)
    {m : Moment} (hm : good m) : post a := by
  induction h with
  | now hp => exact hp
  | later _ ih =>
      have hnext := ih m hm
      rw [hstill m] at hnext
      exact hnext hstill

end Alone

theorem Refresh.step_of_result {a : Alone Refresh} (h : a.phase.result?.isSome = true)
    (m : Moment) : a.step Refresh.step m = a := by
  obtain ⟨c, ⟨ns, phase⟩, es⟩ := a
  cases phase with
  | done result => simp [Alone.step, Refresh.step, Phase.step]
  | _ => cases h

/-- A pass comes to where it has to if the refresh that it is in ends and the pass then goes on from
there with the namespaces that are left. -/
theorem Pass.ends_refresh {good : Moment → Prop} {post : Alone Phase → Prop} {plan : Plan}
    {left : List Target} {a : Alone Refresh}
    (h : Alone.Ends Refresh.step good (fun b => b.phase.result?.isSome = true ∧
      Alone.Ends Phase.step good post ⟨b.cache, visit plan left, b.effects⟩) a)
    (ha : a.phase.result? = none) :
    Alone.Ends Phase.step good post ⟨a.cache, .refresh plan left a.phase, a.effects⟩ := by
  induction h with
  | now hp =>
      rw [ha] at hp
      cases hp.1
  | @later a h ih =>
      refine .later fun m hm => ?_
      simp only [Alone.step, Phase.step]
      cases hresult : (Refresh.step m a.cache a.phase).next.result? with
      | none => exact ih m hm hresult
      | some result =>
          have hsome : (a.step Refresh.step m).phase.result?.isSome = true := by
            rw [Alone.step, hresult]
            rfl
          exact ((h m hm).post_of_still (Refresh.step_of_result hsome) hm).2

/-- So many steps of a pass from its beginning, with nothing in between. -/
def Pass.alone (n : Nat) (ms : Nat → Moment) (c : Cache) : Alone Pass.Phase :=
  Alone.run Phase.step n ms ⟨c, .enter, []⟩

/-- The outcome of a pass that ended without an error. -/
def Pass.Phase.outcome? : Phase → Option Outcome
  | done (.ok o) => some o
  | _ => none

theorem Pass.Phase.eq_done_of_outcome? {p : Phase} {o : Outcome} (h : p.outcome? = some o) :
    p = .done (.ok o) := by
  cases p with
  | done result =>
      cases result with
      | ok o' =>
          cases h
          rfl
      | error e => cases h
  | _ => cases h

end Visibility
