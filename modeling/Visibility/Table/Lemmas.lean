import Visibility.Table

namespace Visibility

namespace Table

variable {α : Type}

theorem lookup_cons_eq {κ : Type} [BEq κ] [LawfulBEq κ] [DecidableEq κ] (k : κ) (e : κ × α)
    (l : List (κ × α)) : (e :: l).lookup k = if k = e.1 then some e.2 else l.lookup k := by
  obtain ⟨a, v⟩ := e
  by_cases h : k = a
  · simp [h]
  · have hb : (k == a) = false := by simpa using h
    simp [List.lookup_cons, h, hb]

theorem lookup_insertEntry (k j : String) (v : α) (l : List (String × α)) :
    (insertEntry k v l).lookup j = if j = k then some v else l.lookup j := by
  induction l with
  | nil => simp [insertEntry, lookup_cons_eq]
  | cons e rest ih =>
      rw [insertEntry]
      split
      · rw [lookup_cons_eq]
      · split
        · rename_i h
          have hk : k ≠ e.1 := fun he => String.lt_irrefl k (by rw [← he] at h; exact h)
          rw [lookup_cons_eq, lookup_cons_eq, ih]
          by_cases hj : j = e.1
          · rw [if_pos hj, if_pos hj, if_neg (fun hjk : j = k => hk (hjk ▸ hj))]
          · rw [if_neg hj, if_neg hj]
        · rename_i h₁ h₂
          have hk : k = e.1 := eq_of_not_lt_of_not_lt h₁ h₂
          rw [lookup_cons_eq, lookup_cons_eq, ← hk]
          split <;> rfl

theorem lookup_filter_ne {κ : Type} [BEq κ] [LawfulBEq κ] [DecidableEq κ] (k j : κ)
    (l : List (κ × α)) :
    (l.filter fun e => e.1 ≠ k).lookup j = if j = k then none else l.lookup j := by
  induction l with
  | nil => simp
  | cons e rest ih =>
      by_cases he : e.1 = k
      · rw [List.filter_cons_of_neg (by simp [he]), ih, lookup_cons_eq, he]
        split <;> rfl
      · rw [List.filter_cons_of_pos (by simp [he]), lookup_cons_eq, lookup_cons_eq, ih]
        by_cases hj : j = e.1
        · rw [if_pos hj, if_pos hj, if_neg (fun hjk : j = k => he (hjk ▸ hj.symm))]
        · rw [if_neg hj, if_neg hj]

theorem lookup_eq_none_of_lt {k : String} {l : List (String × α)} (h : ∀ e ∈ l, k < e.1) :
    l.lookup k = none := by
  rw [List.lookup_eq_none_iff]
  intro e he
  have hk : k ≠ e.1 := fun hk => String.lt_irrefl k (by simpa [← hk] using h e he)
  simp [hk]

theorem lookup_eq_some_iff {k : String} {v : α} {l : List (String × α)}
    (h : l.Pairwise fun a b => a.1 < b.1) : l.lookup k = some v ↔ (k, v) ∈ l := by
  induction l with
  | nil => simp
  | cons e rest ih =>
      obtain ⟨a, w⟩ := e
      rw [List.pairwise_cons] at h
      rw [lookup_cons_eq, List.mem_cons]
      by_cases hk : k = a
      · subst hk
        have hnot : (k, v) ∉ rest := fun hm => String.lt_irrefl k (h.1 _ hm)
        simp [hnot, eq_comm]
      · simp [hk, ih h.2]

theorem mem_entries_iff {t : Table α} {k : String} {v : α} :
    (k, v) ∈ t.entries ↔ t.get? k = some v := (lookup_eq_some_iff t.sorted).symm

theorem eq_of_lookup_eq {l r : List (String × α)} (hl : l.Pairwise fun a b => a.1 < b.1)
    (hr : r.Pairwise fun a b => a.1 < b.1) (h : ∀ k, l.lookup k = r.lookup k) : l = r := by
  induction l generalizing r with
  | nil =>
      cases r with
      | nil => rfl
      | cons e rest => simpa [lookup_cons_eq] using h e.1
  | cons a l ih =>
      cases r with
      | nil => simpa [lookup_cons_eq] using h a.1
      | cons b r =>
          rw [List.pairwise_cons] at hl hr
          have key : a.1 = b.1 := by
            refine eq_of_not_lt_of_not_lt (fun hlt => ?_) (fun hlt => ?_)
            · have hn : (b :: r).lookup a.1 = none := by
                refine lookup_eq_none_of_lt fun e he => ?_
                rcases List.mem_cons.1 he with rfl | he
                · exact hlt
                · exact String.lt_trans hlt (hr.1 e he)
              simp [← h a.1, lookup_cons_eq] at hn
            · have hn : (a :: l).lookup b.1 = none := by
                refine lookup_eq_none_of_lt fun e he => ?_
                rcases List.mem_cons.1 he with rfl | he
                · exact hlt
                · exact String.lt_trans hlt (hl.1 e he)
              simp [h b.1, lookup_cons_eq] at hn
          have value : a.2 = b.2 := by
            have ha := h a.1
            rw [lookup_cons_eq, lookup_cons_eq, if_pos rfl, if_pos key] at ha
            exact Option.some.inj ha
          have head : a = b := Prod.ext key value
          subst head
          refine congrArg (a :: ·) (ih hl.2 hr.2 fun k => ?_)
          by_cases hk : k = a.1
          · rw [hk, lookup_eq_none_of_lt hl.1, lookup_eq_none_of_lt hr.1]
          · have hl := h k
            rwa [lookup_cons_eq, lookup_cons_eq, if_neg hk, if_neg hk] at hl

/-- Tables with the same look-ups are equal. -/
theorem ext_get? {s t : Table α} (h : ∀ k, s.get? k = t.get? k) : s = t :=
  Table.ext (eq_of_lookup_eq s.sorted t.sorted h)

@[simp] theorem get?_empty (k : String) : (∅ : Table α).get? k = none := rfl

@[simp] theorem get?_insert (t : Table α) (k j : String) (v : α) :
    (t.insert k v).get? j = if j = k then some v else t.get? j := lookup_insertEntry k j v t.entries

@[simp] theorem get?_erase (t : Table α) (k j : String) :
    (t.erase k).get? j = if j = k then none else t.get? j := lookup_filter_ne k j t.entries

theorem contains_eq_true_iff {t : Table α} {k : String} :
    t.contains k = true ↔ ∃ v, t.get? k = some v := by
  rw [contains, Option.isSome_iff_exists]

@[simp] theorem contains_insert (t : Table α) (k j : String) (v : α) :
    (t.insert k v).contains j = (decide (j = k) || t.contains j) := by
  by_cases h : j = k <;> simp [contains, h]

@[simp] theorem contains_erase (t : Table α) (k j : String) :
    (t.erase k).contains j = (decide (j ≠ k) && t.contains j) := by
  by_cases h : j = k <;> simp [contains, h]

theorem mem_keys_iff {t : Table α} {k : String} : k ∈ t.keys ↔ t.contains k = true := by
  rw [contains_eq_true_iff, keys, List.mem_map]
  refine ⟨fun ⟨e, he, hk⟩ => ⟨e.2, mem_entries_iff.1 (by rwa [← hk])⟩, fun ⟨v, hv⟩ => ?_⟩
  exact ⟨(k, v), mem_entries_iff.2 hv, rfl⟩

theorem lookup_filterMap {β : Type} (f : String → α → Option β) (k : String)
    (l : List (String × α)) (h : l.Pairwise fun a b => a.1 < b.1) :
    (l.filterMap fun e => (f e.1 e.2).map (e.1, ·)).lookup k = (l.lookup k).bind (f k) := by
  induction l with
  | nil => rfl
  | cons e rest ih =>
      rw [List.pairwise_cons] at h
      rw [lookup_cons_eq, List.filterMap_cons]
      by_cases hk : k = e.1
      · subst hk
        rw [if_pos rfl, Option.bind_some]
        cases hf : f e.1 e.2 with
        | none => rw [Option.map_none, ih h.2, lookup_eq_none_of_lt h.1, Option.bind_none]
        | some b => rw [Option.map_some, lookup_cons_eq, if_pos rfl]
      · rw [if_neg hk]
        cases hf : f e.1 e.2 with
        | none => rw [Option.map_none, ih h.2]
        | some b => rw [Option.map_some, lookup_cons_eq, if_neg hk, ih h.2]

@[simp] theorem get?_filterMap {β : Type} (f : String → α → Option β) (t : Table α) (k : String) :
    (t.filterMap f).get? k = (t.get? k).bind (f k) := lookup_filterMap f k t.entries t.sorted

theorem nodup_keys (t : Table α) : t.keys.Nodup := by
  rw [keys, List.Nodup, List.pairwise_map]
  refine t.sorted.imp fun {a b} h hab => ?_
  exact String.lt_irrefl a.1 (by rw [← hab] at h; exact h)

theorem mem_values_iff {t : Table α} {v : α} : v ∈ t.values ↔ ∃ k, t.get? k = some v := by
  rw [values, List.mem_map]
  refine ⟨fun ⟨e, he, hv⟩ => ⟨e.1, mem_entries_iff.1 (by rwa [← hv])⟩, fun ⟨k, hk⟩ => ?_⟩
  exact ⟨(k, v), mem_entries_iff.2 hk, rfl⟩

theorem size_eq_length_keys (t : Table α) : t.size = t.keys.length := (List.length_map _).symm

end Table

namespace NameSet

theorem isEmpty_eq_false_iff {s : NameSet} :
    s.isEmpty = false ↔ ∃ name, s.contains name = true := by
  constructor
  · intro h
    cases he : s.entries with
    | nil => simp [Table.isEmpty, he] at h
    | cons e rest =>
        refine ⟨e.1, Table.contains_eq_true_iff.2 ⟨e.2, ?_⟩⟩
        exact Table.mem_entries_iff.1 (he ▸ List.mem_cons_self)
  · rintro ⟨name, h⟩
    obtain ⟨v, hv⟩ := Table.contains_eq_true_iff.1 h
    have hmem := Table.mem_entries_iff.2 hv
    cases he : s.entries with
    | nil => simp [he] at hmem
    | cons e rest => simp [Table.isEmpty, he]

theorem mem_toList {s : NameSet} {name : String} : name ∈ s.toList ↔ s.contains name = true :=
  Table.mem_keys_iff

@[simp] theorem contains_empty (name : String) : (∅ : NameSet).contains name = false := rfl

@[simp] theorem contains_add (s : NameSet) (a b : String) :
    (s.add a).contains b = (decide (b = a) || s.contains b) := Table.contains_insert s a b ()

@[simp] theorem contains_remove (s : NameSet) (a b : String) :
    (s.remove a).contains b = (decide (b ≠ a) && s.contains b) := Table.contains_erase s a b

theorem contains_foldl_add (l : List String) (s : NameSet) (name : String) :
    (l.foldl add s).contains name = (decide (name ∈ l) || s.contains name) := by
  induction l generalizing s with
  | nil => simp
  | cons a l ih =>
      rw [List.foldl_cons, ih, contains_add]
      by_cases h : name = a <;> simp [h]

@[simp] theorem contains_ofList (l : List String) (name : String) :
    (ofList l).contains name = decide (name ∈ l) := by
  rw [ofList, contains_foldl_add, contains_empty, Bool.or_false]

@[simp] theorem contains_union (s t : NameSet) (name : String) :
    (s.union t).contains name = (s.contains name || t.contains name) := by
  rw [union, contains_foldl_add, Bool.or_comm]
  congr 1
  rw [Bool.eq_iff_iff, decide_eq_true_iff]
  exact Table.mem_keys_iff

theorem ext_contains {s t : NameSet} (h : ∀ name, s.contains name = t.contains name) : s = t := by
  refine Table.ext_get? fun k => ?_
  have hk := h k
  rw [Table.contains, Table.contains] at hk
  cases hs : s.get? k <;> cases ht : t.get? k <;> simp_all

theorem ofList_toList (s : NameSet) : ofList s.toList = s := by
  refine ext_contains fun name => ?_
  rw [contains_ofList, Bool.eq_iff_iff, decide_eq_true_iff, mem_toList]

end NameSet

end Visibility
