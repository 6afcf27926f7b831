import Mathlib.Logic.Function.Iterate
import Visibility.Proofs.Cache.Listing
import Visibility.Proofs.Scope
import Visibility.Proofs.Text.Utf8
import Visibility.Proofs.Traversal
import Visibility.Scenario.Job

namespace Visibility

open Rbac (ListError)

namespace Namespaces

variable {s s' : Namespaces}

/-- Every namespace is kept under its own name. -/
def Named (s : Namespaces) : Prop := ∀ ns o, s.get? ns = some o → o.name = some ns

theorem Named.apply {o : Object} (h : s.Named) (ho : s.apply o = some s') : s'.Named := by
  obtain ⟨name, hname, rfl⟩ := Option.map_eq_some_iff.1 ho
  intro ns o' ho'
  rw [get?, Table.get?_insert] at ho'
  split at ho'
  · rename_i hns
    cases ho'
    rw [hname, hns]
  · exact h ns o' ho'

theorem Named.delete (h : s.Named) (name : String) : (s.delete name).Named := by
  intro ns o ho
  rw [get?, Namespaces.delete, Table.get?_erase] at ho
  split at ho
  · cases ho
  · exact h ns o ho

theorem Named.applyAll (h : s.Named) (objects : List Object) :
    (applyAll Namespaces.apply s objects).1.Named := by
  induction objects generalizing s with
  | nil => exact h
  | cons o rest ih =>
      rw [Visibility.applyAll]
      cases ho : s.apply o with
      | none => exact h
      | some s' => exact ih (h.apply ho)

theorem Named.deleteAll (h : s.Named) (names : List String) : (names.foldl Namespaces.delete s).Named := by
  induction names generalizing s with
  | nil => exact h
  | cons name rest ih => exact ih (h.delete name)

theorem Named.reset (h : s.Named) (objects : List Object) (removed : List String) :
    (s.reset objects removed).1.Named := by
  have hall := h.applyAll objects
  rw [Namespaces.reset]
  split
  · rename_i s' hs
    rwa [hs] at hall
  · rename_i s' hs
    rw [hs] at hall
    exact hall.deleteAll removed

end Namespaces

theorem Stores.named_apply {s : Stores} (h : s.namespaces.Named) (c : Change) :
    (s.apply c).1.namespaces.Named := by
  cases c with
  | apply r o =>
      cases r with
      | rbac k =>
          rw [apply]
          cases s.rbac.apply k o <;> exact h
      | namespaces =>
          rw [apply]
          cases ho : s.namespaces.apply o with
          | none => exact h
          | some s' => exact h.apply ho
  | delete r ns name =>
      cases r with
      | rbac k => exact h
      | namespaces => exact h.delete name
  | reset r objects removed =>
      cases r with
      | rbac k => exact h
      | namespaces => exact h.reset objects _

theorem System.Reachable.named {allowed : System → Event → Prop} {s : System}
    (h : Reachable allowed s) : s.stores.namespaces.Named := by
  induction h with
  | init =>
      intro ns o ho
      cases ho
  | @next s e _ _ ih =>
      cases e with
      | change c =>
          rw [stores_change]
          exact Stores.named_apply ih c
      | launch l => rwa [stores_launch]
      | move i m => rwa [stores_move]
      | watch w => rwa [stores_watch]
      | unwatch w => rwa [stores_unwatch]

theorem Moment.eq_get?_of_object {m : Moment} {ns : String} {o : Option Object}
    (h : m.object ns = .ok o) : o = m.stores.namespaces.get? ns := by
  rw [object, ask] at h
  split at h
  · cases h
  · exact (Except.ok.inj h).symm

namespace Listing

/-- However long it takes, a listing that finds the same at every step ends with what it would find at
once. -/
theorem exists_iterate_objects (m : Moment) (c : Cache) (selector : Label.Selector)
    (left : List String) (found : List Object) :
    ∃ k, (step m c)^[k] ⟨selector, .objects left found⟩ =
      ⟨selector, .done ((left.mapM m.object).map fun os => found ++ os.filterMap (keep selector))⟩ := by
  induction left generalizing found with
  | nil =>
      refine ⟨1, ?_⟩
      rw [Function.iterate_one, step, Phase.step]
      simp [pure, Except.pure, Except.map]
  | cons ns left ih =>
      cases hns : m.object ns with
      | error e =>
          refine ⟨1, ?_⟩
          rw [Function.iterate_one, step, Phase.step, hns, List.mapM_cons, hns]
          rfl
      | ok o =>
          obtain ⟨k, hk⟩ := ih (found ++ (keep selector o).toList)
          refine ⟨k + 1, ?_⟩
          rw [Function.iterate_succ_apply, step, Phase.step, hns, List.mapM_cons, hns]
          refine hk.trans ?_
          cases left.mapM m.object with
          | error e => rfl
          | ok os => cases ho : keep selector o <;> simp [ho, bind, Except.bind, pure, Except.pure, Except.map]

theorem exists_iterate_start (m : Moment) (c : Cache) (u : User) (selector : Label.Selector) :
    ∃ k, (step m c)^[k] (start u selector) = ⟨selector, .done (c.list m u selector)⟩ := by
  obtain ⟨k, hk⟩ := exists_iterate_objects m c selector (c.visibleNames m.stores u) []
  refine ⟨k + 1, ?_⟩
  rw [Function.iterate_succ_apply, step, start, Phase.step, hk, Cache.list]
  cases (c.visibleNames m.stores u).mapM m.object <;> rfl

end Listing

/-- Whether a namespace is stored and has labels that a selector matches. -/
def Namespaces.selected (s : Namespaces) (selector : Label.Selector) (ns : String) : Bool :=
  (s.get? ns).any fun o => selector.selects o.labelSet

theorem filterMap_keep (s : Namespaces) (selector : Label.Selector) (names : List String) :
    (names.map s.get?).filterMap (Listing.keep selector) =
      (names.filter (s.selected selector)).filterMap s.get? := by
  rw [List.filterMap_map, List.filterMap_filter]
  refine List.filterMap_congr fun ns _ => ?_
  rw [Function.comp_apply, Listing.keep, Namespaces.selected]
  cases s.get? ns with
  | none => rfl
  | some o => rw [Option.filter_some, Option.any_some]

theorem Namespaces.Named.map_name_filterMap_keep {s : Namespaces} (h : s.Named)
    (selector : Label.Selector) (names : List String) :
    ((names.map s.get?).filterMap (Listing.keep selector)).map (·.name) =
      (names.filter (s.selected selector)).map some := by
  rw [filterMap_keep, List.map_filterMap, ← List.filterMap_eq_map]
  refine List.filterMap_congr fun ns hns => ?_
  obtain ⟨o, ho, -⟩ := (Option.any_eq_true _ _).1 (List.mem_filter.1 hns).2
  rw [ho, Option.map_some, h ns o ho, Function.comp_apply]

namespace Cache

variable {c : Cache}

/-- The record of a namespace names a user or one of its groups. -/
def Names (c : Cache) (u : User) (ns : String) : Prop :=
  ∃ r, c.records.get? ns = some r ∧ (u.name ∈ r.users ∨ ∃ g ∈ u.groups, g ∈ r.groups)

/-- A namespace that a listing for a user shows if it is stored and selected. -/
def Admits (c : Cache) (stores : Stores) (u : User) (ns : String) : Prop :=
  c.Names u ns ∧ Scope.Allow stores.rbac.clusterRoleExists u.scopes ns

theorem Consistent.contains_visible_iff (h : c.Consistent) (u : User) (ns : String) :
    (c.subjects.visible u).contains ns = true ↔ c.Names u ns := by
  rw [h.contains_visible, Option.any_eq_true, Names]
  simp only [Record.names, Bool.or_eq_true, List.any_eq_true]
  rfl

theorem Consistent.mem_visibleNames_iff (h : c.Consistent) (stores : Stores) (u : User) (ns : String) :
    ns ∈ c.visibleNames stores u ↔ c.Admits stores u ns := by
  rw [visibleNames, List.mem_filter, NameSet.mem_toList, h.contains_visible_iff,
    Scope.contains_visible_iff, Admits]

theorem sorted_visibleNames (c : Cache) (stores : Stores) (u : User) :
    (c.visibleNames stores u).Pairwise (· < ·) := by
  refine List.Pairwise.filter _ ?_
  rw [NameSet.toList, Table.keys, List.pairwise_map]
  exact (c.subjects.visible u).sorted

theorem Consistent.visibleNames_eq (h : c.Consistent) (stores : Stores) {u u' : User}
    (hname : u'.name = u.name) (hgroups : ∀ g, g ∈ u'.groups ↔ g ∈ u.groups)
    (hscopes : ∀ x, x ∈ u'.scopes ↔ x ∈ u.scopes) :
    c.visibleNames stores u' = c.visibleNames stores u := by
  have hnames : c.subjects.visible u' = c.subjects.visible u := by
    refine NameSet.ext_contains fun ns => ?_
    rw [Bool.eq_iff_iff, h.contains_visible_iff, h.contains_visible_iff]
    simp only [Names, hname, hgroups]
  rw [visibleNames, visibleNames, hnames]
  refine List.filter_congr fun ns _ => ?_
  rw [Bool.eq_iff_iff, Scope.contains_visible_iff, Scope.contains_visible_iff]
  simp only [Scope.Allow, List.eq_nil_iff_forall_not_mem, hscopes]

theorem list_eq_ok_iff {m : Moment} {u : User} {selector : Label.Selector} {l : List Object} :
    c.list m u selector = .ok l ↔
      (∀ ns ∈ c.visibleNames m.stores u, ∃ o, m.object ns = .ok o) ∧
      l = ((c.visibleNames m.stores u).map m.stores.namespaces.get?).filterMap
        (Listing.keep selector) := by
  rw [list, ← exists_mapM_eq_ok_iff]
  generalize c.visibleNames m.stores u = names
  have hfound : ∀ found, names.mapM m.object = .ok found →
      found = names.map m.stores.namespaces.get? := by
    intro found h
    rw [mapM_eq_ok_iff] at h
    induction names generalizing found with
    | nil =>
        cases found with
        | nil => rfl
        | cons o found => cases h
    | cons ns names ih =>
        cases found with
        | nil => cases h
        | cons o found =>
            rw [List.map_cons, List.map_cons, List.cons.injEq] at h
            rw [List.map_cons, ← ih found h.2, ← Moment.eq_get?_of_object h.1]
  cases h : names.mapM m.object with
  | error e => exact ⟨nofun, nofun⟩
  | ok found =>
      rw [← hfound found h]
      constructor
      · rintro ⟨⟩
        exact ⟨⟨found, rfl⟩, rfl⟩
      · rintro ⟨-, rfl⟩
        rfl

end Cache

namespace System

/-- A listing succeeds if and only if the store gives every namespace that the user may see. It then returns
those that are stored and that the selector matches, by increasing bytes of their names; which groups and
scopes the user has matters, and not how they are listed. -/
theorem listing_exact {s : System} (h : Reachable anything s) (m : Moment) (u : User)
    (selector : Label.Selector) :
    (∃ k, (Listing.step (s.moment m) s.cache)^[k] (Listing.start u selector) =
      ⟨selector, .done (s.cache.list (s.moment m) u selector)⟩) ∧
    ((∃ l, s.cache.list (s.moment m) u selector = .ok l) ↔
      ∀ ns, s.cache.Admits s.stores u ns → ∃ o, (s.moment m).object ns = .ok o) ∧
    (∀ l, s.cache.list (s.moment m) u selector = .ok l →
      ∃ names : List String, l = names.filterMap s.stores.namespaces.get? ∧
        l.map (·.name) = names.map some ∧
        names.Pairwise (fun a b => Text.utf8 a < Text.utf8 b) ∧
        ∀ ns, ns ∈ names ↔ s.cache.Admits s.stores u ns ∧
          ∃ o, s.stores.namespaces.get? ns = some o ∧ selector.selects (o.labels.getD ∅) = true) ∧
    (∀ u' : User, u'.name = u.name → (∀ g, g ∈ u'.groups ↔ g ∈ u.groups) →
      (∀ x, x ∈ u'.scopes ↔ x ∈ u.scopes) →
      s.cache.list (s.moment m) u' selector = s.cache.list (s.moment m) u selector) ∧
    ∀ (w : Scenario.World) (l : Listing), ((Scenario.Job.list l).step w).1 = w := by
  have hc := h.consistent
  refine ⟨Listing.exists_iterate_start _ _ u selector, ?_, ?_, ?_, ?_⟩
  · simp only [Cache.list_eq_ok_iff, exists_and_left, exists_eq, and_true, hc.mem_visibleNames_iff]
    rfl
  · intro l hl
    obtain ⟨-, rfl⟩ := Cache.list_eq_ok_iff.1 hl
    refine ⟨(s.cache.visibleNames s.stores u).filter (s.stores.namespaces.selected selector),
      filterMap_keep _ _ _, ?_, ?_, fun ns => ?_⟩
    · exact h.named.map_name_filterMap_keep _ _
    · exact ((Cache.sorted_visibleNames _ _ _).filter _).imp Text.utf8_lt_iff.2
    · rw [List.mem_filter, hc.mem_visibleNames_iff, Namespaces.selected, Option.any_eq_true]
      rfl
  · intro u' hname hgroups hscopes
    rw [Cache.list, Cache.list, hc.visibleNames_eq _ hname hgroups hscopes]
  · intro w l
    rw [Scenario.Job.step]
    split <;> rfl

/-- A user of some groups, one of which is named twice, and of scopes that allow everything. -/
def member : User :=
  ({ name := "m", groups := ["h", "g", "g"] } : User).withScopes ["user:info", "user:full", "role::a"]

theorem listing_exact_member :
    Reachable anything sample ∧
      ∃ l, sample.cache.list (sample.moment (sampleMoment {})) member .everything = .ok l ∧
        ∃ o ∈ l, o.name = some "a" := by
  have h : Reachable anything sample := reachable_sample (fun _ _ => trivial) (fun _ => trivial) fun _ => trivial
  obtain ⟨-, hiff, hnames, -, -⟩ := listing_exact h (sampleMoment {}) member .everything
  obtain ⟨l, hl⟩ := hiff.2 fun ns _ => ⟨_, rfl⟩
  obtain ⟨names, rfl, hmap, -, hmem⟩ := hnames l hl
  have hadmits : sample.cache.Admits sample.stores member "a" := by
    exact ⟨⟨⟨NameSet.ofList ["u"], NameSet.ofList ["g"], sample.stores.hash "a"⟩, by decide +kernel,
      .inr ⟨"g", by decide, by decide⟩⟩, .inr ⟨"user:full", by decide, .inl rfl⟩⟩
  have ha := (hmem "a").2 ⟨hadmits, { name := some "a" }, by decide +kernel, by decide⟩
  have hname : some "a" ∈ (names.filterMap sample.stores.namespaces.get?).map (·.name) := by
    rw [hmap]
    exact List.mem_map_of_mem ha
  obtain ⟨o, ho, hname⟩ := List.mem_map.1 hname
  exact ⟨h, _, hl, o, ho, hname⟩

end System

end Visibility
