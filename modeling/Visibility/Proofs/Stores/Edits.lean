import Mathlib.Logic.Relation
import Visibility.Stores
import Visibility.Table.Lemmas

namespace Visibility.Rbac

def Slot.kind : Slot → Kind
  | .clusterRoles => .clusterRole
  | .clusterRoleBindings => .clusterRoleBinding
  | .roles _ => .role
  | .roleBindings _ => .roleBinding

theorem Slot.kind_of? {k : Kind} {ns : Option String} {s : Slot} (h : Slot.of? k ns = some s) :
    s.kind = k := by
  cases k with
  | clusterRole | clusterRoleBinding =>
      cases h
      rfl
  | role | roleBinding =>
      obtain ⟨n, -, rfl⟩ := Option.map_eq_some_iff.1 h
      rfl

theorem Local.eq_empty_of_isEmpty {l : Local} (h : l.isEmpty = true) : l = {} := by
  obtain ⟨roles, bindings⟩ := l
  simp only [isEmpty, Table.isEmpty, Bool.and_eq_true, List.isEmpty_iff] at h
  have hroles : roles = ∅ := Table.ext h.1
  have hbindings : bindings = ∅ := Table.ext h.2
  rw [hroles, hbindings]

namespace Index

@[simp] theorem inNamespace_setNamespace (ix : Index) (ns ns' : String) (l : Local) :
    (ix.setNamespace ns l).inNamespace ns' = if ns' = ns then l else ix.inNamespace ns' := by
  rw [setNamespace, inNamespace, inNamespace]
  by_cases hl : l.isEmpty = true
  · rw [if_pos hl, Table.get?_erase]
    by_cases hns : ns' = ns
    · rw [if_pos hns, if_pos hns, Local.eq_empty_of_isEmpty hl]
      rfl
    · rw [if_neg hns, if_neg hns]
  · rw [if_neg hl, Table.get?_insert]
    by_cases hns : ns' = ns
    · rw [if_pos hns, if_pos hns]
      rfl
    · rw [if_neg hns, if_neg hns]

theorem get_set (ix : Index) (s s' : Slot) (t : Table Ref) :
    (ix.set s t).get s' = if s' = s then t else ix.get s' := by
  cases s with
  | clusterRoles | clusterRoleBindings => cases s' <;> rfl
  | roles ns | roleBindings ns =>
      cases s' with
      | clusterRoles | clusterRoleBindings => rfl
      | roles ns' | roleBindings ns' =>
          simp only [set, get, inNamespace_setNamespace, Slot.roles.injEq, Slot.roleBindings.injEq,
            reduceCtorEq, if_false]
          by_cases hns : ns' = ns
          · simp [hns]
          · simp [hns]

@[simp] theorem version_set (ix : Index) (s : Slot) (t : Table Ref) (k : Kind) :
    (ix.set s t).version k = ix.version k := by cases s <;> rfl

@[simp] theorem version_bump (ix : Index) (j k : Kind) :
    (ix.bump j).version k = if k = j then ix.version k + 1 else ix.version k := by
  rw [bump, version, PerKind.get_set]
  by_cases h : k = j
  · rw [if_pos h, if_pos h, h]
  · rw [if_neg h, if_neg h, version]

@[simp] theorem get_bump (ix : Index) (k : Kind) (s : Slot) : (ix.bump k).get s = ix.get s := by
  cases s <;> rfl

/-- One change of the index, with the version that it counts. -/
inductive Edit (ix : Index) : Index → Prop where
  | insert (s : Slot) (name : String) (r : Ref) (hr : r.kind = s.kind)
      (hne : (ix.get s).get? name ≠ some r) :
      Edit ix ((ix.set s ((ix.get s).insert name r)).bump s.kind)
  | erase (s : Slot) (name : String) (h : (ix.get s).contains name = true) :
      Edit ix ((ix.set s ((ix.get s).erase name)).bump s.kind)
  /-- Notes that a whole listing of a kind came in. -/
  | sync (k : Kind) : Edit ix { ix with synced := ix.synced.set k true }

abbrev Edits : Index → Index → Prop := Relation.ReflTransGen Edit

theorem edits_apply {k : Kind} {ix ix' : Index} {o : Object} (h : ix.apply k o = some ix') :
    ix.Edits ix' := by
  obtain ⟨name, -, rfl⟩ := Option.map_eq_some_iff.1 h
  cases hs : Slot.of? k o.ns with
  | none => exact .refl
  | some s =>
      have hk := Slot.kind_of? hs
      subst hk
      dsimp only
      split
      · exact .refl
      · rename_i hne
        exact .single (.insert s name _ rfl hne)

theorem edits_delete (k : Kind) (ix : Index) (ns name : String) :
    ix.Edits (ix.delete k ns name) := by
  rw [delete]
  cases hs : Slot.of? k (some ns) with
  | none => exact .refl
  | some s =>
      have hk := Slot.kind_of? hs
      subst hk
      dsimp only
      split
      · rename_i hc
        exact .single (.erase s name hc)
      · exact .refl

theorem edits_applyAll (k : Kind) (ix : Index) (objects : List Object) :
    ix.Edits (applyAll (apply k) ix objects).1 := by
  induction objects generalizing ix with
  | nil => exact .refl
  | cons o rest ih =>
      rw [applyAll]
      cases h : ix.apply k o with
      | none => exact .refl
      | some ix' => exact (edits_apply h).trans (ih ix')

theorem edits_deleteAll (k : Kind) (ix : Index) (removed : List (String × String)) :
    ix.Edits (removed.foldl (fun ix r => ix.delete k r.1 r.2) ix) := by
  induction removed generalizing ix with
  | nil => exact .refl
  | cons r rest ih => exact (edits_delete k ix r.1 r.2).trans (ih _)

theorem edits_reset (k : Kind) (ix : Index) (objects : List Object)
    (removed : List (String × String)) : ix.Edits (ix.reset k objects removed).1 := by
  have happly := edits_applyAll k ix objects
  rw [reset]
  split
  · rename_i ix' h
    rwa [h] at happly
  · rename_i ix' h
    rw [h] at happly
    exact (happly.trans (edits_deleteAll k ix' removed)).tail (.sync k)

/-- What the version of a kind tells about its objects: it never falls, and while it stays they do. -/
structure Evolves (ix ix' : Index) : Prop where
  version_le : ∀ k, ix.version k ≤ ix'.version k
  get_eq : ∀ s : Slot, ix'.version s.kind = ix.version s.kind → ix'.get s = ix.get s

theorem Evolves.refl (ix : Index) : ix.Evolves ix := ⟨fun _ => Nat.le_refl _, fun _ _ => rfl⟩

theorem Evolves.trans {a b c : Index} (hab : a.Evolves b) (hbc : b.Evolves c) : a.Evolves c := by
  refine ⟨fun k => Nat.le_trans (hab.version_le k) (hbc.version_le k), fun s h => ?_⟩
  have hb : b.version s.kind = a.version s.kind :=
    Nat.le_antisymm (h ▸ hbc.version_le s.kind) (hab.version_le s.kind)
  rw [hbc.get_eq s (h.trans hb.symm), hab.get_eq s hb]

theorem evolves_set_bump (ix : Index) (s : Slot) (t : Table Ref) :
    ix.Evolves ((ix.set s t).bump s.kind) := by
  refine ⟨fun k => ?_, fun s' h => ?_⟩
  · rw [version_bump, version_set]
    split <;> omega
  · have hs : s' ≠ s := by
      rintro rfl
      simp at h
    rw [get_bump, get_set, if_neg hs]

theorem Edit.evolves {ix ix' : Index} (h : ix.Edit ix') : ix.Evolves ix' := by
  cases h with
  | insert s name r hr hne => exact evolves_set_bump ix s _
  | erase s name h => exact evolves_set_bump ix s _
  | sync k => exact ⟨fun _ => Nat.le_refl _, fun s _ => by cases s <;> rfl⟩

theorem Edits.evolves {ix ix' : Index} (h : ix.Edits ix') : ix.Evolves ix' := by
  induction h with
  | refl => exact .refl ix
  | tail _ he ih => exact ih.trans he.evolves

/-- Every reference is of the kind of its slot. -/
def Kinded (ix : Index) : Prop :=
  ∀ s name r, (ix.get s).get? name = some r → r.kind = s.kind

theorem kinded_empty : Kinded {} := by
  intro s name r h
  cases s <;> cases h

theorem Edit.kinded {ix ix' : Index} (h : ix.Edit ix') (hix : ix.Kinded) : ix'.Kinded := by
  intro s' name' r' h'
  cases h with
  | insert s name r hr hne =>
      rw [get_bump, get_set] at h'
      by_cases hs : s' = s
      · subst hs
        rw [if_pos rfl, Table.get?_insert] at h'
        by_cases hn : name' = name
        · rw [if_pos hn] at h'
          cases h'
          exact hr
        · rw [if_neg hn] at h'
          exact hix s' name' r' h'
      · rw [if_neg hs] at h'
        exact hix s' name' r' h'
  | erase s name h =>
      rw [get_bump, get_set] at h'
      by_cases hs : s' = s
      · subst hs
        rw [if_pos rfl, Table.get?_erase] at h'
        by_cases hn : name' = name
        · rw [if_pos hn] at h'
          cases h'
        · rw [if_neg hn] at h'
          exact hix s' name' r' h'
      · rw [if_neg hs] at h'
        exact hix s' name' r' h'
  | sync k =>
      have hget : ({ ix with synced := ix.synced.set k true } : Index).get s' = ix.get s' := by
        cases s' <;> rfl
      exact hix s' name' r' (hget ▸ h')

theorem Edits.kinded {ix ix' : Index} (h : ix.Edits ix') (hix : ix.Kinded) : ix'.Kinded := by
  induction h with
  | refl => exact hix
  | tail _ he ih => exact he.kinded ih

end Index

end Visibility.Rbac

namespace Visibility.Stores

open Rbac (Index)

theorem edits_apply (s : Stores) (c : Change) : s.rbac.Edits (s.apply c).1.rbac := by
  cases c with
  | apply resource o =>
      cases resource with
      | rbac k =>
          rw [apply]
          cases h : s.rbac.apply k o with
          | none => exact .refl
          | some ix => exact Index.edits_apply h
      | namespaces =>
          rw [apply]
          cases s.namespaces.apply o <;> exact .refl
  | delete resource ns name =>
      cases resource with
      | rbac k => exact Index.edits_delete k s.rbac ns name
      | namespaces => exact .refl
  | reset resource objects removed =>
      cases resource with
      | rbac k => exact Index.edits_reset k s.rbac objects removed
      | namespaces => exact .refl

end Visibility.Stores
