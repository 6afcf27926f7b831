import Visibility.Proofs.Cache.Readiness
import Visibility.Proofs.Cache.Watching

/-!
The last notification that a watcher hears.

A call tells the watchers when it has given back the locks, one after the other, so another call can change the
audience of the namespace in between and tell of that. The watchers that are left then hear the older audience
after the newer one. This is the only way for a last notification not to be about the present audience.
-/

namespace Visibility.System

variable {events : List Event} {w ns : String} {i j k : Nat} {x : NameSet × NameSet}

/-- The call that changes the audience of a namespace with the event at an index, and the new audience. -/
def change? (ns : String) (events : List Event) (k : Nat) : Option (Nat × NameSet × NameSet) :=
  events[k]?.bind fun e =>
    let s := run {} (events.take k)
    let x := (s.next e).cache.audience ns
    if x = s.cache.audience ns then none else e.mover?.map (·, x)

/-- The call that tells a watcher of a namespace with the event at an index, and what it tells. -/
def tidings? (w ns : String) (events : List Event) (k : Nat) : Option (Nat × NameSet × NameSet) :=
  events[k]?.bind fun e =>
    ((run {} (events.take k)).deed? e).bind fun d => (told w ns [d]).head?.map (d.1, ·)

theorem change?_eq_some : change? ns events k = some (i, x) ↔
    ∃ m, events[k]? = some (.move i m) ∧ x ≠ (run {} (events.take k)).cache.audience ns ∧
      (run {} (events.take (k + 1))).cache.audience ns = x := by
  constructor
  · intro h
    obtain ⟨e, he, h⟩ := Option.bind_eq_some_iff.1 h
    dsimp only at h
    split at h
    · cases h
    · rename_i hne
      obtain ⟨i', hi, heq⟩ := Option.map_eq_some_iff.1 h
      cases heq
      obtain ⟨m, rfl⟩ := Event.eq_move_of_mover? hi
      exact ⟨m, he, hne, by rw [run_take_succ he]⟩
  · rintro ⟨m, he, hne, hx⟩
    rw [run_take_succ he] at hx
    rw [change?, he, Option.bind_some]
    dsimp only
    rw [hx, if_neg hne]
    rfl

theorem tidings?_eq_some : tidings? w ns events k = some (i, x) ↔
    ∃ m, events[k]? = some (.move i m) ∧
      (run {} (events.take k)).effect? (.move i m) = some (.notified w ns x.1 x.2) := by
  constructor
  · intro h
    obtain ⟨e, he, h⟩ := Option.bind_eq_some_iff.1 h
    obtain ⟨d, hd, h⟩ := Option.bind_eq_some_iff.1 h
    obtain ⟨y, hy, heq⟩ := Option.map_eq_some_iff.1 h
    cases heq
    obtain ⟨i', hi, hd⟩ := Option.bind_eq_some_iff.1 hd
    obtain ⟨m, rfl⟩ := Event.eq_move_of_mover? hi
    obtain ⟨effect, heffect, rfl⟩ := Option.map_eq_some_iff.1 hd
    refine ⟨m, he, heffect.trans ?_⟩
    cases effect with
    | notified w' ns' users groups =>
        by_cases hw : w' = w ∧ ns' = ns
        · obtain ⟨rfl, rfl⟩ := hw
          simp only [told, List.filterMap_cons, and_self, if_true, List.filterMap_nil,
            List.head?_cons, Option.some.injEq] at hy
          rw [← hy]
        · simp [told, hw] at hy
    | _ => cases hy
  · rintro ⟨m, he, heffect⟩
    rw [tidings?, he, Option.bind_some, deed?, Event.mover?, Option.bind_some, heffect]
    simp [told]

theorem tidings?_eq_none_of_length_le (h : events.length ≤ k) : tidings? w ns events k = none := by
  rw [tidings?, List.getElem?_eq_none h, Option.bind_none]

theorem change?_eq_none_of_length_le (h : events.length ≤ k) : change? ns events k = none := by
  rw [change?, List.getElem?_eq_none h, Option.bind_none]

theorem notice_take_succ (events : List Event) (i k : Nat) :
    (∃ m, events[k]? = some (.move i m) ∧
      Notice.Step (run {} (events.take k)).cache ((run {} (events.take k)).notice? i)
        ((run {} (events.take k)).effect? (.move i m)) (run {} (events.take (k + 1))).cache
        ((run {} (events.take (k + 1))).notice? i)) ∨
    (run {} (events.take (k + 1))).notice? i = (run {} (events.take k)).notice? i ∧
      (∀ ns x, change? ns events k ≠ some (i, x)) ∧ ∀ w ns x, tidings? w ns events k ≠ some (i, x) := by
  cases he : events[k]? with
  | none =>
      refine .inr ⟨?_, fun ns x => ?_, fun w ns x => ?_⟩
      · rw [List.take_add_one, he, Option.toList_none, List.append_nil]
      · rw [change?, he]
        exact nofun
      · rw [tidings?, he]
        exact nofun
  | some e =>
      rw [run_take_succ he]
      rcases (run {} (events.take k)).notice_cases e with ⟨j, m, a, rfl, ha⟩ | ⟨-, heffect, hsame, haudience⟩
      · obtain ⟨hstep, hother, -⟩ := notice_move ha m
        by_cases hij : i = j
        · subst hij
          exact .inl ⟨m, rfl, hstep⟩
        · refine .inr ⟨hother i hij, fun ns x hchange => hij ?_, fun w ns x htidings => hij ?_⟩
          · obtain ⟨m', hm', -, -⟩ := change?_eq_some.1 hchange
            rw [he] at hm'
            cases hm'
            rfl
          · obtain ⟨m', hm', -⟩ := tidings?_eq_some.1 htidings
            rw [he] at hm'
            cases hm'
            rfl
      · refine .inr ⟨hsame i, fun ns x hchange => ?_, fun w ns x htidings => ?_⟩
        · obtain ⟨m, hm, hne, hx⟩ := change?_eq_some.1 hchange
          rw [run_take_succ he, haudience] at hx
          exact hne hx.symm
        · obtain ⟨m, hm, hx⟩ := tidings?_eq_some.1 htidings
          rw [he] at hm
          cases hm
          rw [heffect] at hx
          cases hx

theorem audience_take_succ (h : change? ns events k = none) :
    (run {} (events.take (k + 1))).cache.audience ns =
      (run {} (events.take k)).cache.audience ns := by
  cases he : events[k]? with
  | none => rw [List.take_add_one, he, Option.toList_none, List.append_nil]
  | some e =>
      by_contra hne
      rw [run_take_succ he] at hne
      rcases (run {} (events.take k)).notice_cases e with ⟨i, m, a, rfl, -⟩ | ⟨-, -, -, hsame⟩
      · have hsome := change?_eq_some.2 ⟨m, he, hne, by rw [run_take_succ he]⟩
        rw [h] at hsome
        cases hsome
      · exact hne (hsame ns)

theorem audience_take_eq (hjk : j ≤ k) (h : ∀ l, j ≤ l → change? ns events l = none) :
    (run {} (events.take k)).cache.audience ns = (run {} (events.take j)).cache.audience ns := by
  induction k, hjk using Nat.le_induction with
  | base => rfl
  | succ k hjk ih => exact (audience_take_succ (h k hjk)).trans ih

theorem exists_change {n : Notice} (hn : (run {} (events.take k)).notice? i = some n) :
    ∃ j < k, change? n.ns events j = some (i, n.audience) ∧
      ∀ l, j < l → l < k → ∀ ns x, change? ns events l ≠ some (i, x) := by
  induction k generalizing n with
  | zero => cases hn
  | succ k ih =>
      have hearlier : ∀ n', (run {} (events.take k)).notice? i = some n' →
          n'.ns = n.ns → n'.audience = n.audience →
          (∀ ns x, change? ns events k ≠ some (i, x)) →
          ∃ j < k + 1, change? n.ns events j = some (i, n.audience) ∧
            ∀ l, j < l → l < k + 1 → ∀ ns x, change? ns events l ≠ some (i, x) := by
        intro n' hn' hns haudience hk
        obtain ⟨j, hj, hchange, hbetween⟩ := ih hn'
        rw [hns, haudience] at hchange
        refine ⟨j, by omega, hchange, fun l hjl hlk => ?_⟩
        rcases Nat.lt_succ_iff_lt_or_eq.1 hlk with hlk | rfl
        · exact hbetween l hjl hlk
        · exact hk
      rcases notice_take_succ events i k with ⟨m, he, hstep⟩ | ⟨hsame, hk, -⟩
      · rw [hn] at hstep
        rcases hstep.eq_or_of_after with ⟨hne, heq⟩ | ⟨hsame, left, hbefore⟩
        · refine ⟨k, by omega, change?_eq_some.2 ⟨m, he, heq ▸ hne, heq⟩, fun l hkl hlk => ?_⟩
          omega
        · refine hearlier _ hbefore rfl rfl fun ns x hchange => ?_
          obtain ⟨-, -, hne, hx⟩ := change?_eq_some.1 hchange
          rw [hsame] at hx
          exact hne hx.symm
      · exact hearlier n (hsame ▸ hn) rfl rfl hk

/-- Every notification is of a change that the same call made before, its last one so far. -/
theorem exists_change_of_tidings? (h : tidings? w ns events k = some (i, x)) :
    ∃ j < k, change? ns events j = some (i, x) ∧
      ∀ l, j < l → l < k → ∀ ns x, change? ns events l ≠ some (i, x) := by
  rcases notice_take_succ events i k with ⟨m, he, hstep⟩ | ⟨-, -, hnone⟩
  · obtain ⟨m', he', heffect⟩ := tidings?_eq_some.1 h
    rw [he] at he'
    cases he'
    rw [heffect] at hstep
    obtain ⟨left, hbefore⟩ := hstep.exists_of_notified
    exact exists_change hbefore
  · exact absurd h (hnone w ns x)

/-- A call has to tell a watcher of this audience of the namespace. -/
def HasToTell (s : System) (i : Nat) (w ns : String) (x : NameSet × NameSet) : Prop :=
  ∃ left, s.notice? i = some ⟨ns, x, left⟩ ∧ ∀ watchers ∈ left, w ∈ watchers

/-- The watcher is registered, be it once or more often. -/
def registered (w : String) (s : System) : Prop := w ∈ s.cache.watchers

instance (w : String) : DecidablePred (registered w) := fun _ =>
  inferInstanceAs (Decidable (_ ∈ _))

/-- After a change its call has told a watcher, or it still has to. -/
theorem told_or_hasToTell (h : Follows (keeps (registered w)) {} events)
    (hj : change? ns events j = some (i, x)) (hjk : j < k) :
    (∃ l, j < l ∧ l < k ∧ tidings? w ns events l = some (i, x)) ∨
      (run {} (events.take k)).HasToTell i w ns x := by
  induction k, hjk using Nat.le_induction with
  | base =>
      obtain ⟨m, he, hne, hx⟩ := change?_eq_some.1 hj
      rcases notice_take_succ events i j with ⟨m', he', hstep⟩ | ⟨-, hnone, -⟩
      · rcases hstep.changes_or with ⟨ns', -, -, hother, -, hafter⟩ | hsame
        · by_cases hns : ns = ns'
          · subst hns
            rw [hx] at hafter
            exact .inr ⟨none, hafter, nofun⟩
          · exact absurd (hx.symm.trans (hother ns hns)) hne
        · exact absurd (hx.symm.trans (hsame ns)) hne
      · exact absurd hj (hnone ns x)
  | succ k hjk ih =>
      rcases ih with ⟨l, hjl, hlk, htold⟩ | ⟨left, hnotice, hleft⟩
      · exact .inl ⟨l, hjl, by omega, htold⟩
      rcases notice_take_succ events i k with ⟨m, he, hstep⟩ | ⟨hsame, -, -⟩
      · have hw : w ∈ (run {} (events.take k)).cache.watchers := by
          refine (h.take k).keeps_run fun hcalls => ?_
          rw [notice?, hcalls] at hnotice
          cases hnotice
        rw [hnotice] at hstep
        rcases hstep.of_some with ⟨-, hafter⟩ | ⟨v, rest, rfl, heffect, hafter⟩ | ⟨rfl, -⟩
        · refine .inr ⟨_, hafter, fun watchers hwatchers => ?_⟩
          cases hwatchers
          exact hw
        · rcases List.mem_cons.1 (hleft _ rfl) with rfl | hrest
          · exact .inl ⟨k, hjk, by omega, tidings?_eq_some.2 ⟨m, he, heffect⟩⟩
          · refine .inr ⟨_, hafter, fun watchers hwatchers => ?_⟩
            cases hwatchers
            exact hrest
        · exact absurd (hleft _ rfl) List.not_mem_nil
      · exact .inr ⟨left, hsame.trans hnotice, hleft⟩

theorem exists_tidings? (h : Follows (keeps (registered w)) {} events)
    (hquiet : (run {} events).Quiet) (hj : change? ns events j = some (i, x)) :
    ∃ k, j < k ∧ tidings? w ns events k = some (i, x) := by
  have hlt : j < events.length := by
    by_contra hle
    rw [change?_eq_none_of_length_le (Nat.not_lt.1 hle)] at hj
    cases hj
  rcases told_or_hasToTell h hj hlt with ⟨k, hjk, -, htold⟩ | ⟨left, hnotice, -⟩
  · exact ⟨k, hjk, htold⟩
  · rw [List.take_length, hquiet i] at hnotice
    cases hnotice

theorem exists_last {α : Type} {f : Nat → Option α} {n : Nat} (hf : ∀ k, n ≤ k → f k = none)
    (hj : f j ≠ none) : ∃ k x, f k = some x ∧ ∀ l, k < l → f l = none := by
  induction n with
  | zero => exact absurd (hf j (Nat.zero_le j)) hj
  | succ n ih =>
      cases hn : f n with
      | some x => exact ⟨n, x, hn, fun l hl => hf l hl⟩
      | none =>
          refine ih fun k hk => ?_
          rcases Nat.eq_or_lt_of_le hk with rfl | hk
          · exact hn
          · exact hf k hk

/-- The call that gives a notification was overtaken: after its change another call changed the audience too,
and it told the watcher of that, the given audience, before. -/
def Overtaken (w ns : String) (events : List Event) (k : Nat) (newer : NameSet × NameSet) : Prop :=
  ∃ i older j i' j' k', tidings? w ns events k = some (i, older) ∧
    tidings? w ns events k' = some (i', newer) ∧ change? ns events j = some (i, older) ∧
    change? ns events j' = some (i', newer) ∧ i ≠ i' ∧ j < j' ∧ j' < k' ∧ k' < k

/-- When all calls have returned, a watcher that was registered from the first call on has been told nothing of
a namespace that nobody may access, or the last it was told is the present audience, or the call that told it
was overtaken by the one that left the present audience. -/
theorem last_tidings_present_or_overtaken (h : Follows (keeps (registered w)) {} events)
    (hidle : (run {} events).Idle) (ns : String) :
    ((∀ k, tidings? w ns events k = none) ∧ (run {} events).cache.audience ns = (∅, ∅)) ∨
    ∃ k i x, tidings? w ns events k = some (i, x) ∧
      (∀ l, k < l → tidings? w ns events l = none) ∧
      (x = (run {} events).cache.audience ns ∨
        Overtaken w ns events k ((run {} events).cache.audience ns)) := by
  by_cases hnever : ∀ j, change? ns events j = none
  · left
    constructor
    · intro k
      rw [Option.eq_none_iff_forall_ne_some]
      rintro ⟨i, x⟩ hk
      obtain ⟨j, -, hj, -⟩ := exists_change_of_tidings? hk
      rw [hnever j] at hj
      cases hj
    · have haudience := audience_take_eq (Nat.zero_le events.length) fun l _ => hnever l
      rwa [List.take_length] at haudience
  · right
    obtain ⟨j₀, hj₀⟩ := not_forall.1 hnever
    obtain ⟨j', ⟨i', x'⟩, hj', hlast⟩ := exists_last (fun _ => change?_eq_none_of_length_le) hj₀
    have hpresent : (run {} events).cache.audience ns = x' := by
      obtain ⟨m, he, -, hx⟩ := change?_eq_some.1 hj'
      have hlt : j' < events.length := (List.getElem?_eq_some_iff.1 he).1
      have haudience := audience_take_eq hlt fun l hl => hlast l hl
      rw [List.take_length] at haudience
      exact haudience.trans hx
    -- The call of the last change tells the watcher at some time, so there is a last notification, by it or
    -- by a call whose change came before.
    obtain ⟨k', hjk', hk'⟩ := exists_tidings? h hidle.quiet hj'
    obtain ⟨k, ⟨i, x⟩, hk, hlastk⟩ := exists_last (fun _ => tidings?_eq_none_of_length_le)
      (Option.ne_none_iff_exists'.2 ⟨_, hk'⟩)
    have hkk : k' ≤ k := by
      by_contra hlt
      rw [hlastk k' (by omega)] at hk'
      cases hk'
    obtain ⟨j, hjk, hj, hbetween⟩ := exists_change_of_tidings? hk
    have hjj : j ≤ j' := by
      by_contra hlt
      rw [hlast j (by omega)] at hj
      cases hj
    refine ⟨k, i, x, hk, hlastk, ?_⟩
    rw [hpresent]
    rcases Nat.eq_or_lt_of_le hjj with rfl | hlt
    · left
      rw [hj] at hj'
      cases hj'
      rfl
    · have hi : i ≠ i' := by
        rintro rfl
        exact hbetween j' hlt (by omega) ns x' hj'
      have hne : k' ≠ k := by
        rintro rfl
        rw [hk] at hk'
        cases hk'
        exact hi rfl
      exact .inr ⟨i, x, j, i', j', k', hk, hk', hj, hj', hi, hlt, hjk', by omega⟩

/-- A refresh tells the first of two watchers, and before it tells the second one a binding comes in and
another refresh is made, perhaps by the first watcher itself. -/
def overtakingEvents : List Event :=
  [.watch "v", .watch "w", .change (.apply .namespaces { name := some "a" }),
    .launch (.refresh "a" none)] ++ List.replicate 13 (.move 0 (reviewing {} ["old"])) ++
    [.change (.apply (.rbac .roleBinding)
      { name := some "b", ns := some "a", uid := some "x", resourceVersion := some "1" }),
    .launch (.refresh "a" none)] ++ List.replicate 13 (.move 1 (reviewing {} ["new"])) ++
    List.replicate 2 (.move 0 (reviewing {} ["new"]))

theorem last_tidings_overtaken :
    Follows (keeps (registered "w")) {} overtakingEvents ∧ (run {} overtakingEvents).Idle ∧
    ∃ k i x, tidings? "w" "a" overtakingEvents k = some (i, x) ∧
      (∀ l, k < l → tidings? "w" "a" overtakingEvents l = none) ∧
      (x = (run {} overtakingEvents).cache.audience "a" ∨
        Overtaken "w" "a" overtakingEvents k ((run {} overtakingEvents).cache.audience "a")) := by
  have hregistered : Follows (keeps (registered "w")) {} overtakingEvents := by decide +kernel
  have hidle : (run {} overtakingEvents).Idle := by
    rw [Idle]
    decide +kernel
  have htold : tidings? "w" "a" overtakingEvents 32 ≠ none := by decide +kernel
  refine ⟨hregistered, hidle, ?_⟩
  exact (last_tidings_present_or_overtaken hregistered hidle "a").resolve_left fun h => htold (h.1 32)

theorem not_last_tidings_present :
    ¬ ∀ events w ns k i x, Follows (keeps (registered w)) {} events → (run {} events).Idle →
      tidings? w ns events k = some (i, x) → (∀ l, k < l → tidings? w ns events l = none) →
      x = (run {} events).cache.audience ns := by
  intro h
  have hidle : (run {} overtakingEvents).Idle := by
    rw [Idle]
    decide +kernel
  have hlast : ∀ l, 32 < l → tidings? "w" "a" overtakingEvents l = none := by
    intro l hl
    rcases Nat.eq_or_lt_of_le hl with rfl | hl
    · decide +kernel
    · exact tidings?_eq_none_of_length_le hl
  have heq := h overtakingEvents "w" "a" 32 0 (NameSet.ofList ["old"], ∅) (by decide +kernel) hidle
    (by decide +kernel) hlast
  exact absurd heq (by decide +kernel)

end Visibility.System
