import Mathlib.Data.Set.Card
import Mathlib.Logic.Function.Basic
import Visibility.Proofs.Stores.Edits

/-!
The index of access control objects is a finite map: of what was said of an object, the last word counts.

Every event says something of single objects, one after the other. A version counts the words on its kind
that were news, so while a version stays nothing of its kind changes, not even for a while.
-/

namespace Visibility

namespace Rbac

/-- What an object is known by. One of a cluster-scoped kind belongs to no namespace. -/
structure ObjectKey where
  kind : Kind
  ns : Option String
  name : String
deriving DecidableEq

/-- The key of an object of a kind. A namespaced object that names no namespace has none. -/
def ObjectKey.of? (k : Kind) (ns : Option String) (name : String) : Option ObjectKey :=
  if k.isClusterScoped then some ⟨k, none, name⟩ else ns.map fun ns => ⟨k, some ns, name⟩

/-- A word on an object: its identity and version, or that it is gone. -/
structure Write where
  key : ObjectKey
  value : Option (String × String)

namespace Write

/-- The word of an object on itself; what it does not say is empty. -/
def ofObject (k : Kind) (o : Object) : List Write :=
  ((o.name.bind (ObjectKey.of? k o.ns)).map fun key =>
    ⟨key, some (o.uid.getD "", o.resourceVersion.getD "")⟩).toList

/-- The word that an object is gone. -/
def ofRemoved (k : Kind) (ns name : String) : List Write :=
  ((ObjectKey.of? k (some ns) name).map fun key => ⟨key, none⟩).toList

end Write

/-- A map from objects to their identities and versions. -/
abbrev Contents := ObjectKey → Option (String × String)

namespace Contents

/-- One more word, which replaces what was said of its object before. -/
def write (m : Contents) (w : Write) : Contents := Function.update m w.key w.value

/-- The last word on every object. -/
def after (ws : List Write) : Contents := ws.foldl write fun _ => none

/-- The reference that an object has. -/
def ref? (m : Contents) (key : ObjectKey) : Option Ref :=
  (m key).map fun v => ⟨key.kind, v.1, v.2⟩

/-- A list of the references under some keys: each reference occurs in it as often as it has keys. -/
def Lists (m : Contents) (keys : Set ObjectKey) (refs : List Ref) : Prop :=
  ∀ r, (refs.count r : ℕ∞) = {key ∈ keys | m.ref? key = some r}.encard

/-- The writes of a list that change a map, one after the other. -/
def news (m : Contents) : List Write → List Write
  | [] => []
  | w :: ws => (if m w.key = w.value then [] else [w]) ++ news (m.write w) ws

/-- The news of a list of writes on one kind. -/
def newsOf (m : Contents) (ws : List Write) (k : Kind) : List Write :=
  (m.news ws).filter (·.key.kind = k)

variable {m : Contents}

theorem write_eq_self {w : Write} (h : m w.key = w.value) : m.write w = m := by
  rw [write, ← h, Function.update_eq_self]

theorem news_append (m : Contents) (ws ws' : List Write) :
    m.news (ws ++ ws') = m.news ws ++ news (ws.foldl write m) ws' := by
  induction ws generalizing m with
  | nil => rfl
  | cons w ws ih => rw [List.cons_append, news, news, ih, List.append_assoc, List.foldl_cons]

theorem mem_of_mem_news {ws : List Write} {w : Write} (h : w ∈ m.news ws) : w ∈ ws := by
  induction ws generalizing m with
  | nil => exact h
  | cons w₂ ws ih =>
      rw [news, List.mem_append] at h
      rcases h with h | h
      · split at h
        · cases h
        · rw [List.mem_singleton.1 h]
          exact List.mem_cons_self
      · exact List.mem_cons_of_mem _ (ih h)

/-- Without news on a kind nothing of it changes, however many writes there have been so far. -/
theorem foldl_write_of_newsOf_eq_nil {ws ws' : List Write} {k : Kind} (h : m.newsOf ws k = [])
    (hpre : ws' <+: ws) {key : ObjectKey} (hk : key.kind = k) : ws'.foldl write m key = m key := by
  induction ws' generalizing m ws with
  | nil => rfl
  | cons w ws' ih =>
      cases ws with
      | nil => cases List.prefix_nil.1 hpre
      | cons w₂ ws =>
          obtain ⟨rfl, hrest⟩ := List.cons_prefix_cons.1 hpre
          rw [newsOf, news, List.filter_append, List.append_eq_nil_iff] at h
          rw [List.foldl_cons, ih h.2 hrest, write]
          by_cases hw : m w.key = w.value
          · rw [← hw, Function.update_eq_self]
          · rw [Function.update_of_ne]
            rintro rfl
            simp [hw, hk] at h

end Contents

end Rbac

namespace Change

open Rbac (Write)

/-- What an event says of access control objects. A listing says what there is, and then what is gone. -/
def writes : Change → List Write
  | .apply (.rbac k) o => Write.ofObject k o
  | .delete (.rbac k) ns name => Write.ofRemoved k ns name
  | .reset (.rbac k) objects removed =>
      objects.flatMap (Write.ofObject k) ++ removed.flatMap fun x => Write.ofRemoved k x.1 x.2
  | .apply .namespaces _ | .delete .namespaces _ _ | .reset .namespaces _ _ => []

def resource : Change → Resource
  | .apply r _ | .delete r _ _ | .reset r _ _ => r

def objects : Change → List Object
  | .apply _ o => [o]
  | .delete _ _ _ => []
  | .reset _ os _ => os

/-- Every object of an event has a name. -/
def Named (c : Change) : Prop := ∀ o ∈ c.objects, o.name ≠ none

instance (c : Change) : Decidable c.Named :=
  inferInstanceAs (Decidable (∀ o ∈ c.objects, o.name ≠ none))

end Change

/-- The stores after some events, from the beginning. -/
def Stores.after (changes : List Change) : Stores := changes.foldl (fun s c => (s.apply c).1) {}

namespace Rbac

namespace Slot

def ns? : Slot → Option String
  | clusterRoles | clusterRoleBindings => none
  | roles ns | roleBindings ns => some ns

/-- The key of the object of a name in a slot. -/
def objectKey (s : Slot) (name : String) : ObjectKey := ⟨s.kind, s.ns?, name⟩

theorem objectKey_inj {s s' : Slot} {name name' : String} :
    s.objectKey name = s'.objectKey name' ↔ s = s' ∧ name = name' := by
  constructor
  · intro h
    obtain ⟨hkind, hns, hname⟩ := ObjectKey.mk.inj h
    refine ⟨?_, hname⟩
    cases s <;> cases s' <;> cases hkind <;> cases hns <;> rfl
  · rintro ⟨rfl, rfl⟩
    rfl

theorem objectKey_of? (k : Kind) (ns : Option String) (name : String) :
    ObjectKey.of? k ns name = (Slot.of? k ns).map (·.objectKey name) := by
  cases k <;> cases ns <;> rfl

end Slot

theorem ObjectKey.kind_of? {k : Kind} {ns : Option String} {name : String} {key : ObjectKey}
    (h : of? k ns name = some key) : key.kind = k := by
  rw [Slot.objectKey_of?] at h
  obtain ⟨s, hs, rfl⟩ := Option.map_eq_some_iff.1 h
  exact Slot.kind_of? hs

namespace Write

variable {w : Write} {k : Kind}

theorem kind_of_mem_ofObject {o : Object} (h : w ∈ ofObject k o) : w.key.kind = k := by
  obtain ⟨key, hkey, rfl⟩ := Option.map_eq_some_iff.1 (Option.mem_toList.1 h)
  obtain ⟨name, -, hkey⟩ := Option.bind_eq_some_iff.1 hkey
  exact ObjectKey.kind_of? hkey

theorem kind_of_mem_ofRemoved {ns name : String} (h : w ∈ ofRemoved k ns name) :
    w.key.kind = k := by
  obtain ⟨key, hkey, rfl⟩ := Option.map_eq_some_iff.1 (Option.mem_toList.1 h)
  exact ObjectKey.kind_of? hkey

end Write

namespace Index

/-- What the index holds under a key. -/
def find? (ix : Index) : ObjectKey → Option Ref
  | ⟨.clusterRole, none, name⟩ => ix.clusterRoles.get? name
  | ⟨.clusterRoleBinding, none, name⟩ => ix.clusterRoleBindings.get? name
  | ⟨.role, some ns, name⟩ => (ix.inNamespace ns).roles.get? name
  | ⟨.roleBinding, some ns, name⟩ => (ix.inNamespace ns).roleBindings.get? name
  | _ => none

theorem find?_objectKey (ix : Index) (s : Slot) (name : String) :
    ix.find? (s.objectKey name) = (ix.get s).get? name := by
  cases s <;> rfl

theorem exists_slot_or (key : ObjectKey) :
    (∃ s : Slot, key = s.objectKey key.name) ∨
      (∀ ix : Index, ix.find? key = none) ∧ ∀ (s : Slot) name, key ≠ s.objectKey name := by
  obtain ⟨k, ns, name⟩ := key
  cases k <;> cases ns
  case clusterRole.none => exact .inl ⟨.clusterRoles, rfl⟩
  case clusterRoleBinding.none => exact .inl ⟨.clusterRoleBindings, rfl⟩
  case role.some ns => exact .inl ⟨.roles ns, rfl⟩
  case roleBinding.some ns => exact .inl ⟨.roleBindings ns, rfl⟩
  all_goals
    refine .inr ⟨fun _ => rfl, fun s _ h => ?_⟩
    cases s <;> cases h

/-- The index holds a map, and keeps no namespace without objects. -/
structure Holds (ix : Index) (m : Contents) : Prop where
  find : ∀ key, ix.find? key = m.ref? key
  occupied : ∀ ns l, ix.namespaces.get? ns = some l → l.isEmpty = false

variable {ix ix' : Index} {m : Contents} {s : Slot} {t : Table Ref} {name : String}

theorem Holds.get?_eq (h : ix.Holds m) (s : Slot) (name : String) :
    (ix.get s).get? name = m.ref? (s.objectKey name) := by
  rw [← find?_objectKey, h.find]

theorem occupied_setNamespace (h : ∀ ns l, ix.namespaces.get? ns = some l → l.isEmpty = false)
    (ns : String) (l : Local) :
    ∀ ns' l', (ix.setNamespace ns l).namespaces.get? ns' = some l' → l'.isEmpty = false := by
  intro ns' l' hl'
  rw [setNamespace] at hl'
  by_cases hl : l.isEmpty = true
  · rw [if_pos hl, Table.get?_erase] at hl'
    split at hl'
    · cases hl'
    · exact h ns' l' hl'
  · rw [if_neg hl, Table.get?_insert] at hl'
    split at hl'
    · cases hl'
      exact Bool.not_eq_true _ ▸ hl
    · exact h ns' l' hl'

theorem Holds.set (h : ix.Holds m) {value : Option (String × String)}
    (ht : ∀ name', t.get? name' =
      if name' = name then value.map fun v => ⟨s.kind, v.1, v.2⟩ else (ix.get s).get? name') :
    ((ix.set s t).bump s.kind).Holds (m.write ⟨s.objectKey name, value⟩) := by
  constructor
  · intro key
    rw [Contents.ref?, Contents.write]
    rcases exists_slot_or key with ⟨s', hkey⟩ | ⟨hnone, hkey⟩
    · generalize key.name = name' at hkey
      subst hkey
      rw [find?_objectKey, get_bump, get_set]
      by_cases hs : s' = s
      · subst hs
        rw [if_pos rfl, ht]
        by_cases hname : name' = name
        · rw [if_pos hname, hname, Function.update_self]
          rfl
        · rw [if_neg hname, h.get?_eq,
            Function.update_of_ne fun he => hname (Slot.objectKey_inj.1 he).2]
          rfl
      · rw [if_neg hs, h.get?_eq, Function.update_of_ne fun he => hs (Slot.objectKey_inj.1 he).1]
        rfl
    · rw [Function.update_of_ne (hkey s name), hnone, ← hnone ix, h.find]
      rfl
  · cases s with
    | clusterRoles | clusterRoleBindings => exact h.occupied
    | roles ns | roleBindings ns => exact occupied_setNamespace h.occupied ns _

/-- The index after some writes: it holds the last word on every object, and its versions count the news. -/
structure Reached (ix : Index) (ws : List Write) : Prop where
  holds : ix.Holds (Contents.after ws)
  version_eq : ∀ k, ix.version k = (Contents.newsOf (fun _ => none) ws k).length

variable {ws : List Write}

theorem reached_empty : Reached {} [] := by
  refine ⟨⟨fun key => ?_, fun ns l h => by cases h⟩, fun k => by cases k <;> rfl⟩
  rcases exists_slot_or key with ⟨s, hkey⟩ | ⟨hnone, -⟩
  · rw [hkey, find?_objectKey]
    cases s <;> rfl
  · exact hnone {}

theorem newsOf_concat (ws : List Write) (w : Write) (k : Kind) :
    (Contents.newsOf (fun _ => none) (ws ++ [w]) k).length =
      (Contents.newsOf (fun _ => none) ws k).length +
        if Contents.after ws w.key ≠ w.value ∧ w.key.kind = k then 1 else 0 := by
  rw [Contents.newsOf, Contents.news_append, List.filter_append, List.length_append]
  congr 1
  rw [Contents.news, Contents.news, List.append_nil, ← Contents.after]
  by_cases hw : Contents.after ws w.key = w.value
  · simp [hw]
  · by_cases hk : w.key.kind = k <;> simp [hw, hk]

theorem Reached.keep (h : ix.Reached ws) {w : Write} (hw : Contents.after ws w.key = w.value) :
    ix.Reached (ws ++ [w]) := by
  constructor
  · rw [Contents.after, List.foldl_concat]
    exact (Contents.write_eq_self hw).symm ▸ h.holds
  · intro k
    rw [newsOf_concat, if_neg (fun hn => hn.1 hw), h.version_eq, Nat.add_zero]

theorem Reached.change (h : ix.Reached ws) {value : Option (String × String)}
    (hne : Contents.after ws (s.objectKey name) ≠ value)
    (ht : ∀ name', t.get? name' =
      if name' = name then value.map fun v => ⟨s.kind, v.1, v.2⟩ else (ix.get s).get? name') :
    ((ix.set s t).bump s.kind).Reached (ws ++ [⟨s.objectKey name, value⟩]) := by
  constructor
  · rw [Contents.after, List.foldl_concat]
    exact h.holds.set ht
  · intro k
    rw [newsOf_concat, version_bump, version_set, h.version_eq]
    by_cases hk : k = s.kind
    · rw [if_pos hk, if_pos ⟨hne, hk.symm⟩]
    · rw [if_neg hk, if_neg (fun hn => hk hn.2.symm), Nat.add_zero]

variable {k : Kind}

theorem Reached.apply (h : ix.Reached ws) {o : Object} (ho : ix.apply k o = some ix') :
    ix'.Reached (ws ++ Write.ofObject k o) := by
  obtain ⟨name, hname, rfl⟩ := Option.map_eq_some_iff.1 ho
  rw [Write.ofObject, hname, Option.bind_some, Slot.objectKey_of?]
  cases hs : Slot.of? k o.ns with
  | none => rwa [Option.map_none, Option.map_none, Option.toList_none, List.append_nil]
  | some s =>
      have hkind := Slot.kind_of? hs
      subst hkind
      have hfound := h.holds.get?_eq s name
      rw [Contents.ref?] at hfound
      dsimp only [Option.map_some, Option.toList_some]
      split
      · rename_i heq
        refine h.keep ?_
        rw [hfound] at heq
        obtain ⟨v, hv, href⟩ := Option.map_eq_some_iff.1 heq
        obtain ⟨-, huid, hversion⟩ := Ref.mk.inj href
        exact hv.trans (congrArg some (Prod.ext huid hversion))
      · rename_i hne
        refine h.change (fun heq => hne ?_) (fun name' => Table.get?_insert _ _ _ _)
        rw [hfound, heq]
        rfl

theorem Reached.delete (h : ix.Reached ws) (k : Kind) (ns name : String) :
    (ix.delete k ns name).Reached (ws ++ Write.ofRemoved k ns name) := by
  rw [Write.ofRemoved, Slot.objectKey_of?, Index.delete]
  cases hs : Slot.of? k (some ns) with
  | none => rwa [Option.map_none, Option.map_none, Option.toList_none, List.append_nil]
  | some s =>
      have hkind := Slot.kind_of? hs
      subst hkind
      have hfound := h.holds.get?_eq s name
      rw [Contents.ref?] at hfound
      dsimp only [Option.map_some, Option.toList_some]
      split
      · rename_i hc
        refine h.change (fun heq => ?_) (fun name' => Table.get?_erase _ _ _)
        rw [Table.contains, hfound, heq] at hc
        cases hc
      · rename_i hc
        refine h.keep ?_
        rwa [Table.contains, hfound, Option.isSome_map, Option.isSome_iff_ne_none, ne_eq,
          Decidable.not_not] at hc

theorem Reached.applyAll (h : ix.Reached ws) {objects : List Object}
    (hnamed : ∀ o ∈ objects, o.name ≠ none) :
    ∃ ix', Visibility.applyAll (Index.apply k) ix objects = (ix', .complete) ∧
      ix'.Reached (ws ++ objects.flatMap (Write.ofObject k)) := by
  induction objects generalizing ix ws with
  | nil => exact ⟨ix, rfl, by rwa [List.flatMap_nil, List.append_nil]⟩
  | cons o rest ih =>
      rw [List.forall_mem_cons] at hnamed
      rw [Visibility.applyAll, List.flatMap_cons, ← List.append_assoc]
      cases ho : ix.apply k o with
      | none => exact absurd (Option.map_eq_none_iff.1 ho) hnamed.1
      | some ix' => exact ih (h.apply ho) hnamed.2

theorem Reached.deleteAll (h : ix.Reached ws) (k : Kind) (removed : List (String × String)) :
    (removed.foldl (fun ix r => ix.delete k r.1 r.2) ix).Reached
      (ws ++ removed.flatMap fun x => Write.ofRemoved k x.1 x.2) := by
  induction removed generalizing ix ws with
  | nil => rwa [List.foldl_nil, List.flatMap_nil, List.append_nil]
  | cons r rest ih =>
      rw [List.foldl_cons, List.flatMap_cons, ← List.append_assoc]
      exact ih (h.delete k r.1 r.2)

theorem Reached.sync (h : ix.Reached ws) (synced : PerKind Bool) :
    Reached { ix with synced } ws := by
  refine ⟨⟨fun key => ?_, h.holds.occupied⟩, h.version_eq⟩
  rw [← h.holds.find]
  rcases exists_slot_or key with ⟨s, hkey⟩ | ⟨hnone, -⟩
  · rw [hkey]
    cases s <;> rfl
  · rw [hnone, hnone]

theorem Reached.reset (h : ix.Reached ws) {objects : List Object}
    (hnamed : ∀ o ∈ objects, o.name ≠ none) (removed : List (String × String)) :
    (ix.reset k objects removed).1.Reached (ws ++
      (objects.flatMap (Write.ofObject k) ++ removed.flatMap fun x => Write.ofRemoved k x.1 x.2)) := by
  obtain ⟨ix', hall, h'⟩ := h.applyAll (k := k) hnamed
  rw [Index.reset, hall, ← List.append_assoc]
  exact (h'.deleteAll k removed).sync _

end Index

end Rbac

namespace Stores

open Rbac (Kind Index Contents ObjectKey Write)

variable {ws : List Write} {changes : List Change}

theorem reached_apply {s : Stores} (h : s.rbac.Reached ws) {c : Change} (hc : c.Named) :
    (s.apply c).1.rbac.Reached (ws ++ c.writes) := by
  cases c with
  | apply r o =>
      cases r with
      | rbac k =>
          rw [apply]
          cases ho : s.rbac.apply k o with
          | none => exact absurd (Option.map_eq_none_iff.1 ho) (hc o List.mem_cons_self)
          | some ix => exact h.apply ho
      | namespaces =>
          rw [apply, Change.writes, List.append_nil]
          cases s.namespaces.apply o <;> exact h
  | delete r ns name =>
      cases r with
      | rbac k => exact h.delete k ns name
      | namespaces => rwa [apply, Change.writes, List.append_nil]
  | reset r objects removed =>
      cases r with
      | rbac k => exact h.reset hc removed
      | namespaces => rwa [apply, Change.writes, List.append_nil]

theorem reached_after (hnamed : ∀ c ∈ changes, c.Named) :
    (after changes).rbac.Reached (changes.flatMap Change.writes) := by
  induction changes using List.reverseRecOn with
  | nil => exact Index.reached_empty
  | append_singleton changes c ih =>
      rw [List.forall_mem_append] at hnamed
      rw [after, List.foldl_concat, List.flatMap_append, List.flatMap_singleton]
      exact reached_apply (ih hnamed.1) (hnamed.2 c List.mem_cons_self)

end Stores

end Visibility
