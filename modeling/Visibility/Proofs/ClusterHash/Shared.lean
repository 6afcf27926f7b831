import Visibility.Proofs.ClusterHash.Turns

namespace Visibility

open Rbac (Kind Ref)

namespace ClusterHash

/-- A call on its way. -/
structure Caller where
  inquiry : Inquiry
  /-- The stores when its computation began. -/
  began : Stores := {}

def Caller.step (m : Moment) (h : ClusterHash) (a : Caller) : Caller where
  inquiry := (a.inquiry.step m h).2
  began :=
    match a.inquiry.computation? with
    | some .enter => m.stores
    | _ => a.began

/-- A digest with its callers, over stores that change. It also keeps when the last computation that succeeded
began, and what it returned. -/
structure Shared where
  stores : Stores := {}
  digest : ClusterHash := {}
  /-- The calls made so far; those that ended stay. -/
  callers : List Caller := []
  success : Option (Stores × String) := none

namespace Shared

/-- Anything that can happen between two looks of a call. -/
inductive Event where
  | change (c : Change)
  /-- A call that insists on a computation. -/
  | compute
  /-- A call that settles for the kept digest. -/
  | request
  /-- A step of a call, which finds the stores as they are and all else as the moment says. -/
  | move (index : Nat) (moment : Moment)

def call (s : Shared) (q : Inquiry) : Shared := { s with callers := s.callers ++ [{ inquiry := q }] }

/-- The state after a step of a caller. -/
def advance (s : Shared) (i : Nat) (a : Caller) (m : Moment) : Shared :=
  { s with
    digest := (a.inquiry.step m s.digest).1
    callers := s.callers.set i (a.step m s.digest)
    success :=
      match a.inquiry.succeeds? m s.digest with
      | some hash => some (a.began, hash)
      | none => s.success }

def next (s : Shared) : Event → Shared
  | .change c => { s with stores := (s.stores.apply c).1 }
  | .compute => s.call (.compute .enter)
  | .request => s.call (.request .start)
  | .move i m =>
      match s.callers[i]? with
      | none => s
      | some a => s.advance i a { m with stores := s.stores }

def run (s : Shared) (events : List Event) : Shared := events.foldl next s

/-- A caller is in a computation that has the lock. -/
structure Computes (s : Shared) (i : Nat) (a : Caller) (c : Computation) : Prop where
  caller : s.callers[i]? = some a
  computation : a.inquiry.computation? = some c
  running : c.running = true

/-- What holds at every time: one caller computes at most, and what is kept is what the last success
returned, with versions that were read after its beginning. -/
structure Kept (s : Shared) : Prop where
  sound : s.digest.Sound s.stores.rbac
  success_eq : s.success.map (·.2) = s.digest.lastHash
  began_le : ∀ began hash x, s.success = some (began, hash) → s.digest.last = some x →
    began.versions ≤ x.versions
  holding : ∀ i a c, s.Computes i a c →
    s.digest.busy = true ∧ c.Holding s.digest s.stores a.began.versions
  alone : ∀ i a c j b d, s.Computes i a c → s.Computes j b d → i = j

variable {s : Shared} {i : Nat} {a : Caller} {c : Computation} {m : Moment}

theorem kept_empty : Kept {} where
  sound := nofun
  success_eq := rfl
  began_le := nofun
  holding i a c h := by cases h.caller
  alone i a c j b d h := by cases h.caller

theorem Kept.change (h : s.Kept) (c : Change) : (s.next (.change c)).Kept := by
  have hevolves := (s.stores.edits_apply c).evolves
  have hle := s.stores.versions_le_apply c
  refine ⟨h.sound.evolves hevolves, h.success_eq, h.began_le, fun i a c hc => ?_, ?_⟩
  · obtain ⟨hbusy, hold⟩ := h.holding i a c ⟨hc.caller, hc.computation, hc.running⟩
    exact ⟨hbusy, hold.of_le hevolves hle⟩
  · intro i a c j b d hc hd
    exact h.alone i a c j b d ⟨hc.caller, hc.computation, hc.running⟩
      ⟨hd.caller, hd.computation, hd.running⟩

theorem Kept.call (h : s.Kept) {q : Inquiry} (hq : ∀ c, q.computation? = some c → c.running = false) :
    (s.call q).Kept := by
  have hold : ∀ {i a c}, (s.call q).Computes i a c → s.Computes i a c := by
    intro i a c hc
    refine ⟨?_, hc.computation, hc.running⟩
    have hcaller := hc.caller
    rw [Shared.call, List.getElem?_append] at hcaller
    split at hcaller
    · exact hcaller
    · rw [List.getElem?_singleton] at hcaller
      split at hcaller
      · cases hcaller
        have hidle := hq c hc.computation
        rw [hc.running] at hidle
        cases hidle
      · cases hcaller
  exact ⟨h.sound, h.success_eq, h.began_le, fun i a c hc => h.holding i a c (hold hc),
    fun i a c j b d hc hd => h.alone i a c j b d (hold hc) (hold hd)⟩

theorem computes_advance (ha : s.callers[i]? = some a) {j : Nat} {b : Caller} {d : Computation}
    (hd : (s.advance i a m).Computes j b d) :
    j = i ∧ b = a.step m s.digest ∨ j ≠ i ∧ s.Computes j b d := by
  have hcaller := hd.caller
  rw [advance, List.getElem?_set] at hcaller
  by_cases hij : i = j
  · rw [if_pos hij, if_pos (List.getElem?_eq_some_iff.1 ha).1] at hcaller
    cases hcaller
    exact .inl ⟨hij.symm, rfl⟩
  · rw [if_neg hij] at hcaller
    exact .inr ⟨Ne.symm hij, hcaller, hd.computation, hd.running⟩

theorem Kept.advance_idle (h : s.Kept) (ha : s.callers[i]? = some a)
    (hdigest : (a.inquiry.step m s.digest).1 = s.digest)
    (hsuccess : a.inquiry.succeeds? m s.digest = none)
    (hidle : ∀ d, (a.step m s.digest).inquiry.computation? = some d → d.running = false) :
    (s.advance i a m).Kept := by
  have hkept : (s.advance i a m).success = s.success := by rw [advance, hsuccess]
  have hold : ∀ {j b d}, (s.advance i a m).Computes j b d → s.Computes j b d := by
    intro j b d hd
    obtain ⟨-, rfl⟩ | ⟨-, hd⟩ := computes_advance ha hd
    · exact absurd hd.running (by rw [hidle d hd.computation]; exact Bool.false_ne_true)
    · exact hd
  refine ⟨?_, ?_, ?_, fun j b d hd => ?_, fun j b d k e f hd hf => h.alone j b d k e f (hold hd) (hold hf)⟩
  · rw [advance, hdigest]
    exact h.sound
  · rw [hkept, advance, hdigest]
    exact h.success_eq
  · rw [hkept, advance, hdigest]
    exact h.began_le
  · rw [advance, hdigest]
    exact h.holding j b d (hold hd)

theorem Kept.advance_alone (ha : s.callers[i]? = some a)
    (hothers : ∀ j b d, s.Computes j b d → j = i)
    (hsound : (a.inquiry.step m s.digest).1.Sound s.stores.rbac)
    (hsuccess : (s.advance i a m).success.map (·.2) = (a.inquiry.step m s.digest).1.lastHash)
    (hbegan : ∀ began hash x, (s.advance i a m).success = some (began, hash) →
      (a.inquiry.step m s.digest).1.last = some x → began.versions ≤ x.versions)
    (hhold : ∀ d, (a.step m s.digest).inquiry.computation? = some d → d.running = true →
      (a.inquiry.step m s.digest).1.busy = true ∧
        d.Holding (a.inquiry.step m s.digest).1 s.stores (a.step m s.digest).began.versions) :
    (s.advance i a m).Kept := by
  have hself : ∀ {j b d}, (s.advance i a m).Computes j b d → j = i ∧ b = a.step m s.digest := by
    intro j b d hd
    obtain hself | ⟨hne, hd⟩ := computes_advance ha hd
    · exact hself
    · exact absurd (hothers j b d hd) hne
  refine ⟨hsound, hsuccess, hbegan, fun j b d hd => ?_, fun j b d k e f hd hf => ?_⟩
  · obtain ⟨-, rfl⟩ := hself hd
    exact hhold d hd.computation hd.running
  · exact (hself hd).1.trans (hself hf).1.symm

/-- What a step of a caller can do to what is kept. -/
inductive Advance (s : Shared) (i : Nat) (a : Caller) (m : Moment) : Prop where
  | idle (hdigest : (a.inquiry.step m s.digest).1 = s.digest)
      (hsuccess : a.inquiry.succeeds? m s.digest = none)
      (hidle : ∀ d, (a.step m s.digest).inquiry.computation? = some d → d.running = false)
  | work (hothers : ∀ j b d, s.Computes j b d → j = i)
      (hlast : (a.inquiry.step m s.digest).1.last = s.digest.last)
      (hsuccess : a.inquiry.succeeds? m s.digest = none)
      (hhold : ∀ d, (a.step m s.digest).inquiry.computation? = some d → d.running = true →
        (a.inquiry.step m s.digest).1.busy = true ∧
          d.Holding (a.inquiry.step m s.digest).1 s.stores (a.step m s.digest).began.versions)
  | succeed (x : Hashed) (hothers : ∀ j b d, s.Computes j b d → j = i)
      (hlast : (a.inquiry.step m s.digest).1.last = some x)
      (hsuccess : a.inquiry.succeeds? m s.digest = some x.hash)
      (hresult : (a.step m s.digest).inquiry.result? = some (.ok x.hash))
      (hidle : ∀ d, (a.step m s.digest).inquiry.computation? = some d → d.running = false)
      (hsound : x.Sound s.stores.rbac) (hle : a.began.versions ≤ x.versions)

theorem Kept.advance_outside (h : s.Kept) (hc : a.inquiry.computation? = some c)
    (hrun : c.running = false) (hm : m.stores = s.stores) : s.Advance i a m := by
  obtain ⟨hdigest, hnext, -⟩ := Inquiry.step_of_computation? (m := m) (h := s.digest) hc
  have hsuccess : a.inquiry.succeeds? m s.digest = none := by simp [Inquiry.succeeds?, hc, hrun]
  cases c with
  | readRolesVersion | readBindingsVersion | listRoles | listBindings => cases hrun
  | done result =>
      refine .idle hdigest hsuccess fun d hd => ?_
      rw [hnext d hd]
      rfl
  | enter =>
      by_cases hbusy : s.digest.busy = true
      · rw [Computation.step, if_pos hbusy] at hdigest hnext
        refine .idle hdigest hsuccess fun d hd => ?_
        rw [hnext d hd]
        rfl
      · rw [Computation.step, if_neg hbusy] at hdigest hnext
        have hbegan : (a.step m s.digest).began = s.stores := by rw [Caller.step, hc, ← hm]
        refine .work (fun j b d hd => absurd (h.holding j b d hd).1 hbusy) (by rw [hdigest]) hsuccess ?_
        intro d hd _
        cases hnext d hd
        rw [hdigest, hbegan]
        exact ⟨rfl, trivial, Versions.le_refl _, fun x hx => h.sound.versions_le hx, trivial,
          fun _ h => by cases h⟩

theorem Kept.advance_inside (h : s.Kept) (hc : s.Computes i a c) (hm : m.stores = s.stores) :
    s.Advance i a m := by
  obtain ⟨hdigest, hnext, hresult⟩ :=
    Inquiry.step_of_computation? (m := m) (h := s.digest) hc.computation
  obtain ⟨hbusy, hold⟩ := h.holding i a c hc
  have hsuccess : a.inquiry.succeeds? m s.digest = (c.step m s.digest).2.result?.bind Except.toOption := by
    simp [Inquiry.succeeds?, hc.computation, hc.running]
  have hbegan : (a.step m s.digest).began = a.began := by
    rw [Caller.step, hc.computation]
    cases c with
    | enter => cases hc.running
    | _ => rfl
  have hothers : ∀ j b d, s.Computes j b d → j = i := fun j b d hd => h.alone j b d i a c hd hc
  rw [← hm] at hold
  have hsound : s.digest.Sound m.stores.rbac := by
    rw [hm]
    exact h.sound
  obtain ⟨hlast, hbusy', hrun, hold'⟩ | ⟨hlast, -, e, hdone, -⟩ | ⟨x, hlast, -, hdone, hle⟩ :=
    hold.turn hsound hbusy hc.running
  · rw [Computation.result?_eq_none hrun] at hsuccess
    refine .work hothers (by rw [hdigest, hlast]) hsuccess fun d hd _ => ?_
    cases hnext d hd
    rw [hdigest, hbegan, ← hm]
    exact ⟨hbusy', hold'⟩
  · rw [hdone] at hsuccess hnext
    refine .work hothers (by rw [hdigest, hlast]) hsuccess fun d hd hrun => ?_
    rw [hnext d hd] at hrun
    cases hrun
  · rw [hdone] at hsuccess hnext
    refine .succeed x hothers (by rw [hdigest, hlast]) hsuccess (hresult _ (fun h => by cases h) hdone) ?_ ?_ hle
    · intro d hd
      rw [hnext d hd]
      rfl
    · rw [← hm]
      exact (Computation.sound_step hsound hold.sound).1 x hlast

theorem Kept.advance_cases (h : s.Kept) (ha : s.callers[i]? = some a) (hm : m.stores = s.stores) :
    s.Advance i a m := by
  cases hc : a.inquiry.computation? with
  | none =>
      obtain ⟨hdigest, hnext⟩ := Inquiry.step_of_computation?_eq_none (m := m) (h := s.digest) hc
      refine .idle hdigest (by rw [Inquiry.succeeds?, hc]) fun d hd => ?_
      rw [Caller.step, hnext] at hd
      cases hd
  | some c =>
      cases hrun : c.running with
      | true => exact h.advance_inside ⟨ha, hc, hrun⟩ hm
      | false => exact h.advance_outside hc hrun hm

theorem Kept.advance (h : s.Kept) (ha : s.callers[i]? = some a) (hm : m.stores = s.stores) :
    (s.advance i a m).Kept := by
  cases h.advance_cases ha hm with
  | idle hdigest hsuccess hidle => exact h.advance_idle ha hdigest hsuccess hidle
  | work hothers hlast hsuccess hhold =>
      have hkept : (s.advance i a m).success = s.success := by rw [Shared.advance, hsuccess]
      refine Kept.advance_alone ha hothers ?_ ?_ ?_ hhold
      · exact fun x hx => h.sound x (hlast ▸ hx)
      · rw [hkept, h.success_eq, lastHash, lastHash, hlast]
      · exact fun began hash x hx hl => h.began_le began hash x (hkept ▸ hx) (hlast ▸ hl)
  | succeed x hothers hlast hsuccess _ hidle hsound hle =>
      have hkept : (s.advance i a m).success = some (a.began, x.hash) := by
        rw [Shared.advance, hsuccess]
      refine Kept.advance_alone ha hothers ?_ ?_ ?_ ?_
      · intro y hy
        rw [hlast] at hy
        cases hy
        exact hsound
      · rw [hkept, lastHash, hlast]
        rfl
      · intro began hash y hy hl
        rw [hkept] at hy
        rw [hlast] at hl
        cases hy
        cases hl
        exact hle
      · intro d hd hrun
        rw [hidle d hd] at hrun
        cases hrun

theorem Kept.next (h : s.Kept) (e : Event) : (s.next e).Kept := by
  cases e with
  | change c => exact h.change c
  | compute => exact h.call fun c hc => by cases hc; rfl
  | request => exact h.call fun c hc => by cases hc; rfl
  | move i m =>
      rw [Shared.next]
      split
      · exact h
      · rename_i a ha
        exact h.advance ha rfl

theorem Kept.run (h : s.Kept) (events : List Event) : (s.run events).Kept := by
  induction events generalizing s with
  | nil => exact h
  | cons e events ih => exact ih (h.next e)

/-- The index never changes during some events. -/
def Unmoved (s : Shared) (events : List Event) : Prop :=
  ∀ part, part <+: events → (s.run part).stores.rbac = s.stores.rbac

theorem Unmoved.head {e : Event} {events : List Event} (h : s.Unmoved (e :: events)) :
    (s.next e).stores.rbac = s.stores.rbac :=
  h [e] ⟨events, rfl⟩

theorem Unmoved.tail {e : Event} {events : List Event} (h : s.Unmoved (e :: events)) :
    (s.next e).Unmoved events := by
  intro part hpart
  have hwhole := h (e :: part) ((List.prefix_cons_inj e).2 hpart)
  exact hwhole.trans h.head.symm

theorem unmoved_moves (s : Shared) (i : Nat) (m : Moment) (n : Nat) :
    s.Unmoved (List.replicate n (.move i m)) := by
  have hmove : ∀ t : Shared, (t.next (.move i m)).stores = t.stores := by
    intro t
    rw [next]
    split <;> rfl
  intro part hpart
  obtain ⟨k, -, rfl⟩ : ∃ k, k ≤ n ∧ part = List.replicate k (.move i m) := by
    rw [List.prefix_replicate_iff] at hpart
    exact ⟨part.length, hpart.1, hpart.2⟩
  clear hpart
  induction k generalizing s with
  | zero => rfl
  | succ k ih =>
      rw [List.replicate_succ]
      exact (ih (s.next (.move i m))).trans (congrArg Stores.rbac (hmove s))

theorem fresh_call {q : Inquiry} (hq : q.Fresh s.stores.rbac) :
    s.callers.length < (s.call q).callers.length ∧
      ∀ a, (s.call q).callers[s.callers.length]? = some a → a.inquiry.Fresh s.stores.rbac := by
  rw [Shared.call, List.length_append, List.getElem?_concat_length]
  refine ⟨Nat.lt_succ_self _, fun a ha => ?_⟩
  cases ha
  exact hq

theorem Kept.fresh_next (h : s.Kept) {e : Event} (hmoved : (s.next e).stores.rbac = s.stores.rbac)
    (hi : i < s.callers.length) (hf : ∀ a, s.callers[i]? = some a → a.inquiry.Fresh s.stores.rbac) :
    i < (s.next e).callers.length ∧
      ∀ a, (s.next e).callers[i]? = some a → a.inquiry.Fresh (s.next e).stores.rbac := by
  have hcall : ∀ q, i < (s.call q).callers.length ∧
      ∀ a, (s.call q).callers[i]? = some a → a.inquiry.Fresh s.stores.rbac := by
    intro q
    rw [Shared.call, List.length_append, List.getElem?_append_left hi]
    exact ⟨Nat.lt_add_right _ hi, hf⟩
  cases e with
  | change c =>
      rw [hmoved]
      exact ⟨hi, hf⟩
  | compute => exact hcall _
  | request => exact hcall _
  | move j m =>
      rw [Shared.next]
      split
      · exact ⟨hi, hf⟩
      · rename_i b hb
        rw [Shared.advance, List.length_set]
        refine ⟨hi, fun a ha => ?_⟩
        rw [List.getElem?_set] at ha
        split at ha
        · rename_i hij
          subst hij
          rw [if_pos hi] at ha
          cases ha
          exact (hf b hb).step (m := { m with stores := s.stores }) h.sound
        · exact hf a ha

theorem Kept.fresh_run (h : s.Kept) {events : List Event} (hmoved : s.Unmoved events)
    (hi : i < s.callers.length) (hf : ∀ a, s.callers[i]? = some a → a.inquiry.Fresh s.stores.rbac)
    (ha : (s.run events).callers[i]? = some a) : a.inquiry.Fresh s.stores.rbac := by
  induction events generalizing s with
  | nil => exact hf a ha
  | cons e events ih =>
      obtain ⟨hi', hf'⟩ := h.fresh_next hmoved.head hi hf
      rw [← hmoved.head]
      exact ih (h.next e) hmoved.tail hi' hf' ha

/-- A caller that lists has read a version that is greater than at the beginning of the last success. -/
theorem Kept.moved (h : s.Kept) (hc : s.Computes i a c) {v : Versions} (hv : c.versions? = some v)
    {began : Stores} {hash : String} (hsuccess : s.success = some (began, hash)) :
    began.rbac.version .clusterRole < s.stores.rbac.version .clusterRole ∨
      began.rbac.version .clusterRoleBinding < s.stores.rbac.version .clusterRoleBinding := by
  obtain ⟨x, hx, -⟩ : ∃ x, s.digest.last = some x ∧ x.hash = hash := by
    have hlast := h.success_eq
    rw [hsuccess, lastHash] at hlast
    exact Option.map_eq_some_iff.1 hlast.symm
  obtain ⟨-, hold⟩ := h.holding i a c hc
  have hbegan : began.versions ≤ x.versions := h.began_le began hash x hsuccess hx
  have hread : x.versions ≤ v := Versions.le_trans (hold.last_le x hx) (hold.read.le_versions hv)
  have hnow : v ≤ s.stores.versions := hold.sound.le_versions hv
  have hne : x.versions ≠ v := hold.moved v hv x hx
  have hlt : x.versions.roles < v.roles ∨ x.versions.bindings < v.bindings := by
    by_contra hnot
    rw [not_or, Nat.not_lt, Nat.not_lt] at hnot
    exact hne (Versions.ext (Nat.le_antisymm hread.1 hnot.1) (Nat.le_antisymm hread.2 hnot.2))
  refine hlt.imp (fun hroles => ?_) (fun hbindings => ?_)
  · exact Nat.lt_of_le_of_lt hbegan.1 (Nat.lt_of_lt_of_le hroles hnow.1)
  · exact Nat.lt_of_le_of_lt hbegan.2 (Nat.lt_of_lt_of_le hbindings hnow.2)

theorem computes_of_query? (ha : s.callers[i]? = some a) {q : Query} (hq : a.inquiry.query? = some q) :
    ∃ c v, s.Computes i a c ∧ c.query? = some q ∧ c.versions? = some v := by
  obtain ⟨c, hc, hquery⟩ : ∃ c, a.inquiry.computation? = some c ∧ c.query? = some q := by
    cases hinquiry : a.inquiry with
    | compute c =>
        rw [hinquiry] at hq
        exact ⟨c, rfl, hq⟩
    | request r =>
        rw [hinquiry] at hq
        cases r with
        | compute c => exact ⟨c, rfl, hq⟩
        | settle | done result => cases hq
  cases c with
  | listRoles v | listBindings v roles => exact ⟨_, v, ⟨ha, hc, rfl⟩, hquery, rfl⟩
  | enter | readRolesVersion | readBindingsVersion roles | done result => cases hquery

theorem next_move (ha : s.callers[i]? = some a) :
    s.next (.move i m) = s.advance i a { m with stores := s.stores } := by
  rw [next, ha]

theorem callers_advance (ha : s.callers[i]? = some a) :
    (s.advance i a m).callers[i]? = some (a.step m s.digest) := by
  rw [advance, List.getElem?_set_self (List.getElem?_eq_some_iff.1 ha).1]

theorem listing_fails (ha : s.callers[i]? = some a) {k : Kind} (hq : a.inquiry.query? = some (.cluster k))
    {reason : String} (hfault : m.fault (.cluster k) = some reason) :
    (s.next (.move i m)).digest = { s.digest with busy := false } ∧
      (s.next (.move i m)).callers[i]?.bind (·.inquiry.result?) =
        some (.error (.list k (.failed reason))) := by
  obtain ⟨c, v, hc, hquery, -⟩ := computes_of_query? ha hq
  have hcluster : ({ m with stores := s.stores } : Moment).cluster k = .error (.failed reason) := by
    simp only [Moment.cluster, Moment.ask, hfault]
  have hstep : c.step { m with stores := s.stores } s.digest =
      Computation.leave s.digest (.error (.list k (.failed reason))) := by
    cases c with
    | listRoles v | listBindings v roles =>
        cases hquery
        simp only [Computation.step, hcluster]
    | enter | readRolesVersion | readBindingsVersion roles | done result => cases hquery
  obtain ⟨hdigest, -, hresult⟩ := Inquiry.step_of_computation?
    (m := { m with stores := s.stores }) (h := s.digest) hc.computation
  rw [next_move ha, callers_advance ha, advance, hdigest, hstep]
  exact ⟨rfl, hresult _ (fun h => by cases h) (by rw [hstep]; rfl)⟩

/-- What is kept changes only when a computation succeeds, and then to what its call is told. -/
theorem Kept.outcome (h : s.Kept) (e : Event) :
    ((s.next e).digest.last = s.digest.last ∧ (s.next e).success = s.success) ∨
      ∃ i m a x, e = .move i m ∧ s.callers[i]? = some a ∧
        (s.next e).callers[i]?.bind (·.inquiry.result?) = some (.ok x.hash) ∧
        (s.next e).digest.last = some x ∧ (s.next e).success = some (a.began, x.hash) := by
  cases e with
  | change | compute | request => exact .inl ⟨rfl, rfl⟩
  | move i m =>
      cases ha : s.callers[i]? with
      | none =>
          rw [Shared.next, ha]
          exact .inl ⟨rfl, rfl⟩
      | some a =>
          rw [next_move ha]
          cases h.advance_cases (m := { m with stores := s.stores }) ha rfl with
          | idle hdigest hsuccess _ =>
              rw [Shared.advance, hdigest, hsuccess]
              exact .inl ⟨rfl, rfl⟩
          | work _ hlast hsuccess _ =>
              rw [Shared.advance, hsuccess]
              exact .inl ⟨hlast, rfl⟩
          | succeed x _ hlast hsuccess hresult _ _ _ =>
              refine .inr ⟨i, m, a, x, rfl, ha, ?_, hlast, by rw [Shared.advance, hsuccess]⟩
              rw [callers_advance ha]
              exact hresult

/-- Calls for the digest of a set of cluster-scoped objects that changes at any time, also between two looks of
one call. A call for a computation during which the index does not change returns the digest of the index, and so
does the computation inside a call that settles for less. Objects are listed only if a version has moved since
the last success began, or there was none. A listing that fails leaves what is kept, which only a success
changes; and what is kept is always what the last success returned. -/
theorem short_circuit_exact (events : List Event) :
    let s := ({} : Shared).run events
    (∀ es hash began, (s.next .compute).Unmoved es →
      ((s.next .compute).run es).callers[s.callers.length]? = some ⟨.compute (.done (.ok hash)), began⟩ →
      hash = Ref.digest s.stores.clusterRefs) ∧
    (∀ es (a : Caller) m hash, (s.next .request).Unmoved es →
      ((s.next .request).run es).callers[s.callers.length]? = some a →
      m.stores.rbac = s.stores.rbac →
      a.inquiry.succeeds? m ((s.next .request).run es).digest = some hash →
      hash = Ref.digest s.stores.clusterRefs) ∧
    (∀ (i : Nat) (a : Caller) q, s.callers[i]? = some a → a.inquiry.query? = some q →
      ∀ began hash, s.success = some (began, hash) →
        began.rbac.version .clusterRole < s.stores.rbac.version .clusterRole ∨
          began.rbac.version .clusterRoleBinding < s.stores.rbac.version .clusterRoleBinding) ∧
    (∀ (i : Nat) (a : Caller) k m reason, s.callers[i]? = some a → a.inquiry.query? = some (.cluster k) →
      m.fault (.cluster k) = some reason →
      (s.next (.move i m)).digest = { s.digest with busy := false } ∧
        (s.next (.move i m)).callers[i]?.bind (·.inquiry.result?) =
          some (.error (.list k (.failed reason)))) ∧
    (∀ e, ((s.next e).digest.last = s.digest.last ∧ (s.next e).success = s.success) ∨
      ∃ i m a x, e = .move i m ∧ s.callers[i]? = some a ∧
        (s.next e).callers[i]?.bind (·.inquiry.result?) = some (.ok x.hash) ∧
        (s.next e).digest.last = some x ∧ (s.next e).success = some (a.began, x.hash)) ∧
    s.digest.lastHash = s.success.map (·.2) := by
  intro s
  have hkept : s.Kept := kept_empty.run events
  refine ⟨fun es hash began hmoved ha => ?_, fun es a m hash hmoved ha hm hsucceeds => ?_,
    fun i a q ha hq began hash hsuccess => ?_, fun i a k m reason ha hq hfault => listing_fails ha hq hfault,
    hkept.outcome, hkept.success_eq.symm⟩
  · have hopen := fresh_call (s := s) (q := .compute .enter) fun c hc => by cases hc; trivial
    have hfresh := (hkept.next .compute).fresh_run hmoved hopen.1 hopen.2 ha
    exact hfresh _ rfl
  · have hopen := fresh_call (s := s) (q := .request .start) fun c hc => by cases hc; trivial
    have hfresh := (hkept.next .request).fresh_run hmoved hopen.1 hopen.2 ha
    have hend : ((s.next .request).run es).stores.rbac = m.stores.rbac :=
      (hmoved es List.prefix_rfl).trans hm.symm
    have hsound := ((hkept.next .request).run es).sound
    rw [hend] at hsound
    have hdigest := Inquiry.Fresh.succeeds (hm ▸ hfresh) hsound hsucceeds
    rw [hdigest, Stores.clusterRefs, hm]
    rfl
  · obtain ⟨c, v, hc, -, hv⟩ := computes_of_query? ha hq
    exact hkept.moved hc hv hsuccess

/-- A moment at which no look fails. -/
def quiet : Moment := { stores := {}, reviewer := fun _ => .error "" }

/-- A role comes after a computation has read the versions, and before it lists. -/
def raced : List Event :=
  .compute :: List.replicate 3 (.move 0 quiet) ++
    .change (.apply (.rbac .clusterRole)
      { name := some "r", uid := some "x", resourceVersion := some "1" }) ::
    List.replicate 2 (.move 0 quiet)

theorem short_circuit_exact_raced :
    ∃ hash began,
      ((((({} : Shared).run raced).next .compute).run (List.replicate 5 (.move 1 quiet))).callers[1]? =
        some ⟨.compute (.done (.ok hash)), began⟩) ∧
      hash = Ref.digest (({} : Shared).run raced).stores.clusterRefs := by
  refine ⟨_, _, rfl, (short_circuit_exact raced).1 _ _ _ (unmoved_moves _ 1 quiet 5) rfl⟩

end Shared

end ClusterHash

end Visibility
