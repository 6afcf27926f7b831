import Visibility.Proofs.Stores.Contents

namespace Visibility

namespace Rbac.Index

variable {ix : Index} {m : Contents} {k : Kind}

/-- What the index shows of itself is what a map says. -/
structure Shows (ix : Index) (m : Contents) : Prop extends ix.Holds m where
  listCluster : ∀ k, k.isClusterScoped = true →
    ∃ refs, ix.listCluster k = .ok refs ∧ m.Lists {key | key.kind = k} refs
  listNamespaced : ∀ ns, m.Lists {key | key.ns = some ns} (ix.listNamespaced ns)
  size : ∀ k, (ix.size k : ℕ∞) = {key | key.kind = k ∧ m key ≠ none}.encard
  clusterRoleExists : ∀ name,
    ix.clusterRoleExists name = true ↔ m ⟨.clusterRole, none, name⟩ ≠ none

/-- The keys of what some slots hold. -/
def keysIn (ix : Index) (ss : List Slot) : List ObjectKey :=
  ss.flatMap fun s => (ix.get s).keys.map s.objectKey

theorem nodup_keysIn (ix : Index) {ss : List Slot} (hss : ss.Nodup) : (ix.keysIn ss).Nodup := by
  rw [keysIn, List.nodup_flatMap]
  constructor
  · intro s _
    exact (ix.get s).nodup_keys.map fun _ _ h => (Slot.objectKey_inj.1 h).2
  · refine hss.imp fun {s s'} hne => List.disjoint_left.2 fun key h h' => hne ?_
    obtain ⟨name, -, rfl⟩ := List.mem_map.1 h
    obtain ⟨name', -, heq⟩ := List.mem_map.1 h'
    exact (Slot.objectKey_inj.1 heq).1.symm

theorem Holds.ne_none_iff (h : ix.Holds m) (s : Slot) (name : String) :
    m (s.objectKey name) ≠ none ↔ (ix.get s).contains name = true := by
  rw [Table.contains, h.get?_eq, Contents.ref?, Option.isSome_map, Option.isSome_iff_ne_none]

theorem Holds.eq_none_of_ne (h : ix.Holds m) {key : ObjectKey}
    (hkey : ∀ ix : Index, ix.find? key = none) : m key = none := by
  have hfind := h.find key
  rw [hkey] at hfind
  exact Option.map_eq_none_iff.1 hfind.symm

theorem Holds.mem_keysIn_iff (h : ix.Holds m) {keys : Set ObjectKey} {ss : List Slot}
    (hkeys : ∀ (s : Slot) name, m (s.objectKey name) ≠ none → (s.objectKey name ∈ keys ↔ s ∈ ss))
    (key : ObjectKey) : key ∈ ix.keysIn ss ↔ key ∈ keys ∧ m key ≠ none := by
  rw [keysIn, List.mem_flatMap]
  constructor
  · rintro ⟨s, hs, hkey⟩
    obtain ⟨name, hname, rfl⟩ := List.mem_map.1 hkey
    have hheld := (h.ne_none_iff s name).2 (Table.mem_keys_iff.1 hname)
    exact ⟨(hkeys s name hheld).2 hs, hheld⟩
  · rintro ⟨hkey, hheld⟩
    rcases exists_slot_or key with ⟨s, hs⟩ | ⟨hnone, -⟩
    · rw [hs] at hkey hheld ⊢
      exact ⟨s, (hkeys s _ hheld).1 hkey,
        List.mem_map_of_mem (Table.mem_keys_iff.2 ((h.ne_none_iff s _).1 hheld))⟩
    · exact absurd (h.eq_none_of_ne hnone) hheld

theorem Holds.values_eq (h : ix.Holds m) (s : Slot) :
    (ix.get s).values = ((ix.get s).keys.map s.objectKey).filterMap m.ref? := by
  rw [Table.keys, List.map_map, List.filterMap_map, Table.values, eq_comm,
    List.filterMap_eq_map_iff_forall_eq_some]
  intro e he
  rw [Function.comp_apply, Function.comp_apply, ← h.get?_eq]
  exact Table.mem_entries_iff.1 he

theorem encard_setOf_mem {α : Type} {l : List α} (hl : l.Nodup) :
    {a | a ∈ l}.encard = l.length := by
  classical
  rw [← List.toFinset_card_of_nodup hl, ← Set.encard_coe_eq_coe_finsetCard, List.coe_toFinset]

theorem Holds.lists (h : ix.Holds m) {keys : Set ObjectKey} {ss : List Slot} (hss : ss.Nodup)
    (hkeys : ∀ (s : Slot) name, m (s.objectKey name) ≠ none → (s.objectKey name ∈ keys ↔ s ∈ ss)) :
    m.Lists keys (ss.flatMap fun s => (ix.get s).values) := by
  intro r
  have hrefs : ss.flatMap (fun s => (ix.get s).values) = (ix.keysIn ss).filterMap m.ref? := by
    rw [keysIn, List.filterMap_flatMap]
    exact congrArg ss.flatMap (funext h.values_eq)
  have hset : {key ∈ keys | m.ref? key = some r} =
      {key | key ∈ (ix.keysIn ss).filter fun key => m.ref? key == some r} := by
    ext key
    rw [Set.mem_ofPred_eq, Set.mem_ofPred_eq, List.mem_filter, h.mem_keysIn_iff hkeys, beq_iff_eq,
      and_assoc]
    refine and_congr_right fun _ => ⟨fun hr => ⟨?_, hr⟩, And.right⟩
    intro hnone
    rw [Contents.ref?, hnone] at hr
    cases hr
  rw [hrefs, List.count_filterMap, List.countP_eq_length_filter, hset,
    encard_setOf_mem ((ix.nodup_keysIn hss).filter _)]

theorem Holds.encard_eq (h : ix.Holds m) {keys : Set ObjectKey} {ss : List Slot} (hss : ss.Nodup)
    (hkeys : ∀ (s : Slot) name, m (s.objectKey name) ≠ none → (s.objectKey name ∈ keys ↔ s ∈ ss)) :
    {key | key ∈ keys ∧ m key ≠ none}.encard = ((ss.map fun s => (ix.get s).size).sum : ℕ) := by
  have hset : {key | key ∈ keys ∧ m key ≠ none} = {key | key ∈ ix.keysIn ss} :=
    Set.ext fun key => (h.mem_keysIn_iff hkeys key).symm
  rw [hset, encard_setOf_mem (ix.nodup_keysIn hss), keysIn, List.length_flatMap]
  refine congrArg (fun l : List ℕ => ((l.sum : ℕ) : ℕ∞)) (List.map_congr_left fun s _ => ?_)
  rw [List.length_map, Table.size_eq_length_keys]

/-- The slots of a kind, but for those of namespaces that are not there. -/
def slots (ix : Index) : Kind → List Slot
  | .clusterRole => [.clusterRoles]
  | .clusterRoleBinding => [.clusterRoleBindings]
  | .role => ix.namespaces.keys.map .roles
  | .roleBinding => ix.namespaces.keys.map .roleBindings

theorem nodup_slots (ix : Index) (k : Kind) : (ix.slots k).Nodup := by
  cases k with
  | clusterRole | clusterRoleBinding => exact List.nodup_singleton _
  | role => exact ix.namespaces.nodup_keys.map fun _ _ h => Slot.roles.inj h
  | roleBinding => exact ix.namespaces.nodup_keys.map fun _ _ h => Slot.roleBindings.inj h

theorem mem_namespaces_of_ne {ns : String} (h : ix.inNamespace ns ≠ {}) :
    ns ∈ ix.namespaces.keys := by
  rw [Table.mem_keys_iff, Table.contains_eq_true_iff]
  rw [inNamespace] at h
  cases hl : ix.namespaces.get? ns with
  | none => exact absurd (by rw [hl, Option.getD_none]) h
  | some l => exact ⟨l, rfl⟩

theorem mem_slots_iff {s : Slot} (hs : ix.get s ≠ ∅) : s ∈ ix.slots k ↔ s.kind = k := by
  cases s with
  | clusterRoles | clusterRoleBindings => cases k <;> simp [slots, Slot.kind]
  | roles ns =>
      have hns : ns ∈ ix.namespaces.keys := mem_namespaces_of_ne fun h => hs (by rw [get, h])
      cases k <;> simp [slots, Slot.kind, hns]
  | roleBindings ns =>
      have hns : ns ∈ ix.namespaces.keys := mem_namespaces_of_ne fun h => hs (by rw [get, h])
      cases k <;> simp [slots, Slot.kind, hns]

theorem Holds.get_ne_empty (h : ix.Holds m) {s : Slot} {name : String}
    (hheld : m (s.objectKey name) ≠ none) : ix.get s ≠ ∅ := by
  intro hempty
  rw [h.ne_none_iff, hempty] at hheld
  cases hheld

theorem size_eq_sum (ix : Index) (k : Kind) :
    ix.size k = ((ix.slots k).map fun s => (ix.get s).size).sum := by
  have hsum : ∀ f : Local → Table Ref,
      (ix.namespaces.values.map fun l => (f l).size).foldl (· + ·) 0 =
        (ix.namespaces.keys.map fun ns => (f (ix.inNamespace ns)).size).sum := by
    intro f
    rw [← List.sum_eq_foldl_nat, Table.values, Table.keys, List.map_map, List.map_map]
    refine congrArg List.sum (List.map_congr_left fun e he => ?_)
    rw [Function.comp_apply, Function.comp_apply, inNamespace, Table.mem_entries_iff.1 he,
      Option.getD_some]
  cases k with
  | clusterRole | clusterRoleBinding => rfl
  | role =>
      rw [slots, List.map_map]
      exact hsum Local.roles
  | roleBinding =>
      rw [slots, List.map_map]
      exact hsum Local.roleBindings

theorem Holds.shows (h : ix.Holds m) : ix.Shows m where
  toHolds := h
  listCluster k hk := by
    have hlists : m.Lists {key | key.kind = k} ((ix.slots k).flatMap fun s => (ix.get s).values) :=
      h.lists (ix.nodup_slots k) fun s name hheld => (mem_slots_iff (h.get_ne_empty hheld)).symm
    cases k with
    | clusterRole | clusterRoleBinding => exact ⟨_, rfl, by simpa [slots, get] using hlists⟩
    | role | roleBinding => cases hk
  listNamespaced ns := by
    have hss : [Slot.roles ns, Slot.roleBindings ns].Nodup := by simp
    have hlists : m.Lists {key | key.ns = some ns}
        ([Slot.roles ns, .roleBindings ns].flatMap fun s => (ix.get s).values) :=
      h.lists hss fun s name _ => by cases s <;> simp [Slot.objectKey, Slot.ns?]
    simpa [listNamespaced, Local.refs, get] using hlists
  size k := by
    have hcount : {key | key ∈ {key : ObjectKey | key.kind = k} ∧ m key ≠ none}.encard =
        (((ix.slots k).map fun s => (ix.get s).size).sum : ℕ) :=
      h.encard_eq (ix.nodup_slots k) fun s name hheld => (mem_slots_iff (h.get_ne_empty hheld)).symm
    rw [size_eq_sum]
    exact hcount.symm
  clusterRoleExists name := (h.ne_none_iff .clusterRoles name).symm

end Rbac.Index

namespace Stores

open Rbac (Contents ObjectKey Write)

variable {changes : List Change}

theorem kind_of_mem_writes {c : Change} {w : Write} (hw : w ∈ c.writes) :
    c.resource = .rbac w.key.kind := by
  cases c with
  | apply r o =>
      cases r with
      | rbac k => rw [Write.kind_of_mem_ofObject hw, Change.resource]
      | namespaces => cases hw
  | delete r ns name =>
      cases r with
      | rbac k => rw [Write.kind_of_mem_ofRemoved hw, Change.resource]
      | namespaces => cases hw
  | reset r objects removed =>
      cases r with
      | namespaces => cases hw
      | rbac k =>
          rw [Change.resource]
          rcases List.mem_append.1 hw with hw | hw
          · obtain ⟨o, -, hw⟩ := List.mem_flatMap.1 hw
            rw [Write.kind_of_mem_ofObject hw]
          · obtain ⟨x, -, hw⟩ := List.mem_flatMap.1 hw
            rw [Write.kind_of_mem_ofRemoved hw]

/-- The index shows the last word on every object, and keeps no namespace without objects. Each version counts
the words on its kind that were news, so one that stays the same tells that nothing of its kind has changed in
between. -/
theorem index_shows_last_words (hnamed : ∀ c ∈ changes, c.Named)
    (hfew : (Contents.news (fun _ => none) (changes.flatMap Change.writes)).length < 2 ^ 64) :
    let ix := (after changes).rbac
    let m := Contents.after (changes.flatMap Change.writes)
    ix.Shows m ∧ (∀ k, ix.version k < 2 ^ 64) ∧
    ∀ later : List Change, (∀ c ∈ later, c.Named) → ∀ k,
      (after (changes ++ later)).rbac.version k =
        ix.version k + (m.newsOf (later.flatMap Change.writes) k).length ∧
      ((after (changes ++ later)).rbac.version k = ix.version k →
        ∀ ws, ws <+: later.flatMap Change.writes → ∀ key : ObjectKey, key.kind = k →
          Contents.after (changes.flatMap Change.writes ++ ws) key = m key) ∧
      ((∀ c ∈ later, c.resource ≠ .rbac k) →
        (after (changes ++ later)).rbac.version k = ix.version k) := by
  intro ix m
  have hreached := reached_after hnamed
  refine ⟨hreached.holds.shows, fun k => ?_, fun later hlater k => ?_⟩
  · rw [hreached.version_eq]
    exact Nat.lt_of_le_of_lt (List.length_filter_le _ _) hfew
  · have hcount : (after (changes ++ later)).rbac.version k =
        ix.version k + (m.newsOf (later.flatMap Change.writes) k).length := by
      have hall := reached_after (List.forall_mem_append.2 ⟨hnamed, hlater⟩)
      rw [hall.version_eq, hreached.version_eq, List.flatMap_append, Contents.newsOf,
        Contents.news_append, List.filter_append, List.length_append]
      rfl
    refine ⟨hcount, fun hsame ws hws key hkey => ?_, fun hothers => ?_⟩
    · have hnone : m.newsOf (later.flatMap Change.writes) k = [] :=
        List.eq_nil_of_length_eq_zero (by omega)
      rw [Contents.after, List.foldl_append]
      exact Contents.foldl_write_of_newsOf_eq_nil hnone hws hkey
    · have hnone : m.newsOf (later.flatMap Change.writes) k = [] := by
        refine List.filter_eq_nil_iff.2 fun w hw => ?_
        obtain ⟨c, hc, hw⟩ := List.mem_flatMap.1 (Contents.mem_of_mem_news hw)
        rw [decide_eq_true_iff]
        rintro rfl
        exact hothers c hc (kind_of_mem_writes hw)
      rw [hcount, hnone, List.length_nil, Nat.add_zero]

/-- A role that names no namespace, a binding that is listed twice and then gone, and one that comes late. -/
def spokenChanges : List Change := [
  .apply (.rbac .clusterRole) { name := some "view", uid := some "u", resourceVersion := some "1" },
  .apply (.rbac .role) { name := some "r" },
  .reset (.rbac .roleBinding)
    [{ name := some "b", ns := some "a", resourceVersion := some "1" },
      { name := some "b", ns := some "a", resourceVersion := some "1" }] [("a", "b")],
  .apply (.rbac .roleBinding) { name := some "c", ns := some "a" }]

theorem index_shows_last_words_spoken :
    (∀ c ∈ spokenChanges, c.Named) ∧
      (Contents.news (fun _ => none) (spokenChanges.flatMap Change.writes)).length < 2 ^ 64 ∧
      (after spokenChanges).rbac.Shows (Contents.after (spokenChanges.flatMap Change.writes)) ∧
      (after (spokenChanges ++ [.delete (.rbac .roleBinding) "a" "c"])).rbac.version .roleBinding =
        (after spokenChanges).rbac.version .roleBinding + 1 := by
  have hnamed : ∀ c ∈ spokenChanges, c.Named := by decide
  have hfew : (Contents.news (fun _ => none) (spokenChanges.flatMap Change.writes)).length < 2 ^ 64 := by
    decide +kernel
  obtain ⟨hshows, -, hlater⟩ := index_shows_last_words hnamed hfew
  refine ⟨hnamed, hfew, hshows, ?_⟩
  exact (hlater [.delete (.rbac .roleBinding) "a" "c"] (by decide) .roleBinding).1.trans
    (by decide +kernel)

end Stores

end Visibility
