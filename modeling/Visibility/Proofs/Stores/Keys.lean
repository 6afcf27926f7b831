import Visibility.ChangeKey
import Visibility.Proofs.Stores.Edits

namespace Visibility

namespace Rbac

/-- The key of the objects in a slot. -/
def Slot.key : Slot → ChangeKey
  | .clusterRoles | .clusterRoleBindings => .cluster
  | .roles ns | .roleBindings ns => .ns ns

theorem Slot.key_of? {k : Kind} {ns : Option String} {s : Slot} (h : Slot.of? k ns = some s)
    (name : String) : (Resource.rbac k).key ns name = s.key := by
  cases k with
  | clusterRole | clusterRoleBinding =>
      cases h
      rfl
  | role | roleBinding =>
      obtain ⟨n, rfl, rfl⟩ := Option.map_eq_some_iff.1 h
      rfl

namespace Index

/-- A change that leaves alone whatever belongs to other keys than the touched ones. -/
structure Spares (touched : ChangeKey → Prop) (ix ix' : Index) : Prop where
  get_eq : ∀ s : Slot, ¬touched s.key → ix'.get s = ix.get s
  version_eq : ∀ s : Slot, s.key = .cluster → ¬touched .cluster →
    ix'.version s.kind = ix.version s.kind

variable {touched : ChangeKey → Prop} {ix ix' : Index} {k : Kind}

theorem Spares.refl (ix : Index) : Spares touched ix ix := ⟨fun _ _ => rfl, fun _ _ _ => rfl⟩

theorem Spares.trans {a b c : Index} (hab : Spares touched a b) (hbc : Spares touched b c) :
    Spares touched a c where
  get_eq s hs := (hbc.get_eq s hs).trans (hab.get_eq s hs)
  version_eq s hs ht := (hbc.version_eq s hs ht).trans (hab.version_eq s hs ht)

theorem spares_set_bump {s : Slot} (hs : touched s.key) (ix : Index) (t : Table Ref) :
    Spares touched ix ((ix.set s t).bump s.kind) := by
  constructor
  · intro s' hs'
    rw [get_bump, get_set, if_neg]
    rintro rfl
    exact hs' hs
  · intro s' hs' hcluster
    rw [version_bump, if_neg, version_set]
    intro hkind
    have hkey : s.key = .cluster := by
      cases s' with
      | clusterRoles | clusterRoleBindings =>
          cases s with
          | clusterRoles | clusterRoleBindings => rfl
          | roles ns | roleBindings ns => cases hkind
      | roles ns | roleBindings ns => cases hs'
    exact hcluster (hkey ▸ hs)

theorem spares_apply {o : Object} (hkey : ∀ key, (Resource.rbac k).keyOf? o = some key → touched key)
    (h : ix.apply k o = some ix') : Spares touched ix ix' := by
  obtain ⟨name, hname, rfl⟩ := Option.map_eq_some_iff.1 h
  cases hs : Slot.of? k o.ns with
  | none => exact .refl ix
  | some s =>
      have htouched : touched s.key := by
        rw [← Slot.key_of? hs name]
        exact hkey _ (by rw [Resource.keyOf?, hname, Option.map_some])
      have hkind := Slot.kind_of? hs
      subst hkind
      dsimp only
      split
      · exact .refl ix
      · exact spares_set_bump htouched ix _

theorem spares_delete {ns name : String} (hkey : touched ((Resource.rbac k).key (some ns) name))
    (ix : Index) : Spares touched ix (ix.delete k ns name) := by
  rw [delete]
  cases hs : Slot.of? k (some ns) with
  | none => exact .refl ix
  | some s =>
      rw [Slot.key_of? hs name] at hkey
      have hkind := Slot.kind_of? hs
      subst hkind
      dsimp only
      split
      · exact spares_set_bump hkey ix _
      · exact .refl ix

theorem spares_applyAll {objects : List Object}
    (hkeys : ∀ o ∈ objects, ∀ key, (Resource.rbac k).keyOf? o = some key → touched key)
    (ix : Index) : Spares touched ix (applyAll (apply k) ix objects).1 := by
  induction objects generalizing ix with
  | nil => exact .refl ix
  | cons o rest ih =>
      rw [List.forall_mem_cons] at hkeys
      rw [applyAll]
      cases h : ix.apply k o with
      | none => exact .refl ix
      | some ix' => exact (spares_apply hkeys.1 h).trans (ih hkeys.2 ix')

theorem spares_deleteAll {removed : List (String × String)}
    (hkeys : ∀ r ∈ removed, touched ((Resource.rbac k).key (some r.1) r.2)) (ix : Index) :
    Spares touched ix (removed.foldl (fun ix r => ix.delete k r.1 r.2) ix) := by
  induction removed generalizing ix with
  | nil => exact .refl ix
  | cons r rest ih =>
      rw [List.forall_mem_cons] at hkeys
      exact (spares_delete hkeys.1 ix).trans (ih hkeys.2 _)

theorem spares_reset {objects : List Object} {removed : List (String × String)}
    (happlied : ∀ o ∈ objects, ∀ key, (Resource.rbac k).keyOf? o = some key → touched key)
    (hremoved : ∀ r ∈ removed, touched ((Resource.rbac k).key (some r.1) r.2)) (ix : Index) :
    Spares touched ix (ix.reset k objects removed).1 := by
  have hall := spares_applyAll happlied ix
  rw [reset]
  split
  · rename_i ix' h
    rwa [h] at hall
  · rename_i ix' h
    rw [h] at hall
    have hsync : Spares touched (removed.foldl (fun ix r => ix.delete k r.1 r.2) ix')
        { removed.foldl (fun ix r => ix.delete k r.1 r.2) ix' with
          synced := (removed.foldl (fun ix r => ix.delete k r.1 r.2) ix').synced.set k true } :=
      ⟨fun s _ => by cases s <;> rfl, fun _ _ _ => rfl⟩
    exact (hall.trans (spares_deleteAll hremoved ix')).trans hsync

end Index

end Rbac

namespace Namespaces

variable {s s' : Namespaces} {ns : String}

theorem get?_apply {o : Object} (h : s.apply o = some s')
    (hns : Resource.namespaces.keyOf? o ≠ some (.ns ns)) : s'.get? ns = s.get? ns := by
  obtain ⟨name, hname, rfl⟩ := Option.map_eq_some_iff.1 h
  have hne : ns ≠ name := by
    rintro rfl
    exact hns (by rw [Resource.keyOf?, hname, Option.map_some, Resource.key])
  exact (Table.get?_insert _ _ _ _).trans (if_neg hne)

theorem get?_delete {name : String} (hns : ns ≠ name) (s : Namespaces) :
    (s.delete name).get? ns = s.get? ns :=
  (Table.get?_erase _ _ _).trans (if_neg hns)

theorem get?_applyAll {objects : List Object}
    (hns : ∀ o ∈ objects, Resource.namespaces.keyOf? o ≠ some (.ns ns)) (s : Namespaces) :
    (applyAll apply s objects).1.get? ns = s.get? ns := by
  induction objects generalizing s with
  | nil => rfl
  | cons o rest ih =>
      rw [List.forall_mem_cons] at hns
      rw [applyAll]
      cases h : s.apply o with
      | none => rfl
      | some s' => exact (ih hns.2 s').trans (get?_apply h hns.1)

theorem get?_deleteAll {names : List String} (hns : ns ∉ names) (s : Namespaces) :
    (names.foldl delete s).get? ns = s.get? ns := by
  induction names generalizing s with
  | nil => rfl
  | cons name rest ih =>
      rw [List.mem_cons, not_or] at hns
      exact (ih hns.2 _).trans (get?_delete hns.1 s)

theorem get?_reset {objects : List Object} {names : List String}
    (happlied : ∀ o ∈ objects, Resource.namespaces.keyOf? o ≠ some (.ns ns)) (hremoved : ns ∉ names)
    (s : Namespaces) : (s.reset objects names).1.get? ns = s.get? ns := by
  have hall := get?_applyAll happlied s
  rw [reset]
  split
  · rename_i s' h
    rwa [h] at hall
  · rename_i s' h
    rw [h] at hall
    exact (get?_deleteAll hremoved s').trans hall

end Namespaces

namespace Stores

open Rbac (Index)

theorem mem_keys_of_mem_objects {r : Resource} {objects : List Object} {keys : List ChangeKey}
    (h : objects.mapM r.keyOf? = some keys) {o : Object} (ho : o ∈ objects) {key : ChangeKey}
    (hkey : r.keyOf? o = some key) : key ∈ keys := by
  induction objects generalizing keys with
  | nil => cases ho
  | cons o' rest ih =>
      rw [List.mapM_cons] at h
      simp only [Option.bind_eq_bind, Option.bind_eq_some_iff, Option.pure_def, Option.some.injEq] at h
      obtain ⟨key', hkey', keys', hkeys', rfl⟩ := h
      rcases List.mem_cons.1 ho with rfl | ho
      · rw [hkey] at hkey'
        rw [Option.some.inj hkey']
        exact List.mem_cons_self
      · exact List.mem_cons_of_mem _ (ih hkeys' ho)

/-- The keys of a reset cover what is applied and what is removed. -/
theorem keys?_reset {r : Resource} {objects : List Object} {removed : List (String × String)}
    {keys : List ChangeKey} (h : (Change.reset r objects removed).keys? = some keys) :
    (∀ o ∈ objects, ∀ key, r.keyOf? o = some key → key ∈ keys) ∧
      (∀ x ∈ removed, r.key (some x.1) x.2 ∈ keys) ∧ .cluster ∈ keys := by
  obtain ⟨applied, happlied, rfl⟩ := Option.map_eq_some_iff.1 h
  refine ⟨?_, ?_, ?_⟩
  · intro o ho key hkey
    have hmem := mem_keys_of_mem_objects happlied ho hkey
    exact List.mem_append_left _ (List.mem_append_left _ hmem)
  · intro x hx
    exact List.mem_append_left _ (List.mem_append_right _ (List.mem_map_of_mem hx))
  · exact List.mem_append_right _ List.mem_cons_self

variable {s : Stores} {c : Change} {keys : List ChangeKey}

theorem spares_apply (h : c.keys? = some keys) :
    Index.Spares (· ∈ keys) s.rbac (s.apply c).1.rbac := by
  cases c with
  | apply r o =>
      obtain ⟨key, hkey, rfl⟩ := Option.map_eq_some_iff.1 h
      cases r with
      | rbac k =>
          rw [apply]
          cases ha : s.rbac.apply k o with
          | none => exact .refl _
          | some ix =>
              refine Index.spares_apply (fun key' hkey' => ?_) ha
              rw [hkey] at hkey'
              rw [Option.some.inj hkey']
              exact List.mem_cons_self
      | namespaces =>
          rw [apply]
          cases s.namespaces.apply o <;> exact .refl _
  | delete r ns name =>
      cases h
      cases r with
      | rbac k => exact Index.spares_delete List.mem_cons_self s.rbac
      | namespaces => exact .refl _
  | reset r objects removed =>
      obtain ⟨happlied, hremoved, -⟩ := keys?_reset h
      cases r with
      | rbac k => exact Index.spares_reset happlied hremoved s.rbac
      | namespaces => exact .refl _

theorem get?_apply (h : c.keys? = some keys) {ns : String} (hns : .ns ns ∉ keys) :
    (s.apply c).1.namespaces.get? ns = s.namespaces.get? ns := by
  cases c with
  | apply r o =>
      obtain ⟨key, hkey, rfl⟩ := Option.map_eq_some_iff.1 h
      cases r with
      | rbac k =>
          rw [apply]
          cases s.rbac.apply k o <;> rfl
      | namespaces =>
          rw [apply]
          cases ha : s.namespaces.apply o with
          | none => rfl
          | some s' =>
              refine Namespaces.get?_apply ha fun hkey' => ?_
              rw [hkey] at hkey'
              exact hns (Option.some.inj hkey' ▸ List.mem_cons_self)
  | delete r ns' name =>
      cases h
      cases r with
      | rbac k => rfl
      | namespaces =>
          refine Namespaces.get?_delete ?_ s.namespaces
          rintro rfl
          exact hns List.mem_cons_self
  | reset r objects removed =>
      obtain ⟨happlied, hremoved, -⟩ := keys?_reset h
      cases r with
      | rbac k => rfl
      | namespaces =>
          refine Namespaces.get?_reset (fun o ho hkey => hns (happlied o ho _ hkey)) ?_ s.namespaces
          intro hmem
          obtain ⟨x, hx, rfl⟩ := List.mem_map.1 hmem
          exact hns (hremoved x hx)

end Stores

end Visibility
