import Mathlib.Data.List.Dedup
import Visibility.Cache.Basic
import Visibility.Table.Lemmas

namespace Visibility.Subjects

/-- Whether the index lists a namespace under a subject. -/
def sees (g : Grants) (subject ns : String) : Bool := ((g.get? subject).getD ∅).contains ns

/-- No subject is kept without a namespace. -/
def Inhabited (g : Grants) : Prop :=
  ∀ subject names, g.get? subject = some names → names.isEmpty = false

@[simp] theorem sees_empty (subject ns : String) : sees ∅ subject ns = false := rfl

theorem inhabited_empty : Inhabited ∅ := by
  intro subject names h
  cases h

@[simp] theorem sees_grant (g : Grants) (subject ns a n : String) :
    sees (grant g subject ns) a n = (decide (a = subject ∧ n = ns) || sees g a n) := by
  rw [sees, grant, Table.get?_insert]
  by_cases ha : a = subject
  · subst ha
    simp [sees]
  · simp [sees, ha]

theorem inhabited_grant {g : Grants} (hg : Inhabited g) (subject ns : String) :
    Inhabited (grant g subject ns) := by
  intro a names h
  rw [grant, Table.get?_insert] at h
  split at h
  · cases h
    exact NameSet.isEmpty_eq_false_iff.2 ⟨ns, by simp⟩
  · exact hg a names h

@[simp] theorem sees_revoke (g : Grants) (subject ns a n : String) :
    sees (revoke g subject ns) a n = (!decide (a = subject ∧ n = ns) && sees g a n) := by
  rw [sees, revoke]
  cases hs : g.get? subject with
  | none =>
      by_cases ha : a = subject
      · subst ha
        simp [sees, hs]
      · simp [sees, ha]
  | some names =>
      dsimp only
      by_cases ha : a = subject
      · subst ha
        split
        · rename_i hempty
          have hnone : ∀ m, (names.remove ns).contains m = false := by
            intro m
            by_contra hm
            rw [NameSet.isEmpty_eq_false_iff.2 ⟨m, by simpa using hm⟩] at hempty
            cases hempty
          have hn := hnone n
          rw [NameSet.contains_remove] at hn
          simpa [sees, hs] using hn
        · simp [sees, hs]
      · split <;> simp [sees, ha]

theorem inhabited_revoke {g : Grants} (hg : Inhabited g) (subject ns : String) :
    Inhabited (revoke g subject ns) := by
  intro a names h
  rw [revoke] at h
  cases hs : g.get? subject with
  | none =>
      rw [hs] at h
      exact hg a names h
  | some left =>
      rw [hs] at h
      dsimp only at h
      split at h
      · rw [Table.get?_erase] at h
        split at h
        · cases h
        · exact hg a names h
      · rename_i hne
        rw [Table.get?_insert] at h
        split at h
        · cases h
          simpa using hne
        · exact hg a names h

theorem get?_scrub (g : Grants) (ns a : String) :
    (scrub g ns).get? a = (g.get? a).bind fun names =>
      if (names.remove ns).isEmpty then none else some (names.remove ns) :=
  Table.get?_filterMap _ g a

@[simp] theorem sees_scrub (g : Grants) (ns a n : String) :
    sees (scrub g ns) a n = (!decide (n = ns) && sees g a n) := by
  rw [sees, get?_scrub]
  cases hs : g.get? a with
  | none => simp [sees, hs]
  | some names =>
      rw [Option.bind_some]
      by_cases hempty : (names.remove ns).isEmpty = true
      · have hn : (names.remove ns).contains n = false := by
          by_contra hm
          rw [NameSet.isEmpty_eq_false_iff.2 ⟨n, by simpa using hm⟩] at hempty
          cases hempty
        rw [NameSet.contains_remove] at hn
        simpa [sees, hs, hempty] using hn
      · simp [sees, hs, hempty]

theorem inhabited_scrub (g : Grants) (ns : String) : Inhabited (scrub g ns) := by
  intro a names h
  rw [get?_scrub] at h
  obtain ⟨old, -, h⟩ := Option.bind_eq_some_iff.1 h
  split at h
  · cases h
  · rename_i hne
    cases h
    simpa using hne

theorem sees_foldl_grant (l : List String) (g : Grants) (ns a n : String) :
    sees (l.foldl (grant · · ns) g) a n = (decide (a ∈ l ∧ n = ns) || sees g a n) := by
  induction l generalizing g with
  | nil => simp
  | cons b l ih =>
      rw [List.foldl_cons, ih, sees_grant]
      by_cases hb : a = b <;> by_cases hn : n = ns <;> simp [hb, hn]

theorem inhabited_foldl_grant {g : Grants} (hg : Inhabited g) (l : List String) (ns : String) :
    Inhabited (l.foldl (grant · · ns) g) := by
  induction l generalizing g with
  | nil => exact hg
  | cons b l ih => exact ih (inhabited_grant hg b ns)

theorem sees_foldl_revoke (l : List String) (g : Grants) (ns a n : String) :
    sees (l.foldl (revoke · · ns) g) a n = (!decide (a ∈ l ∧ n = ns) && sees g a n) := by
  induction l generalizing g with
  | nil => simp
  | cons b l ih =>
      rw [List.foldl_cons, ih, sees_revoke]
      by_cases hb : a = b <;> by_cases hn : n = ns <;> simp [hb, hn]

theorem inhabited_foldl_revoke {g : Grants} (hg : Inhabited g) (l : List String) (ns : String) :
    Inhabited (l.foldl (revoke · · ns) g) := by
  induction l generalizing g with
  | nil => exact hg
  | cons b l ih => exact ih (inhabited_revoke hg b ns)

/-- Grants that are the inverse of one of the subject sets of the records. -/
structure Mirrors (g : Grants) (records : Table Record) (subjects : Record → NameSet) : Prop where
  sees_iff : ∀ a n, sees g a n = true ↔
    ∃ r, records.get? n = some r ∧ (subjects r).contains a = true
  inhabited : Inhabited g

variable {g : Grants} {records : Table Record} {subjects : Record → NameSet}

theorem mirrors_empty : Mirrors ∅ ∅ subjects where
  sees_iff a n := by simp
  inhabited := inhabited_empty

/-- Taking out the old subjects of a namespace and then adding the new ones keeps the index, since the
old ones are all under which the namespace stood. -/
theorem Mirrors.commit (h : Mirrors g records subjects) (ns : String) (r : Record) :
    Mirrors ((subjects r).toList.foldl (grant · · ns)
        (((records.get? ns).elim ∅ subjects).toList.foldl (revoke · · ns) g))
      (records.insert ns r) subjects where
  sees_iff a n := by
    simp only [sees_foldl_grant, sees_foldl_revoke, Table.get?_insert, NameSet.mem_toList]
    by_cases hn : n = ns
    · subst hn
      have hold : ((records.get? n).elim ∅ subjects).contains a = true ↔ sees g a n = true := by
        rw [h.sees_iff]
        cases records.get? n <;> simp
      simp [hold]
    · simp [hn, h.sees_iff]
  inhabited := inhabited_foldl_grant (inhabited_foldl_revoke h.inhabited _ _) _ _

theorem Mirrors.scrub (h : Mirrors g records subjects) (ns : String) :
    Mirrors (Subjects.scrub g ns) (records.erase ns) subjects where
  sees_iff a n := by
    rw [sees_scrub, Table.get?_erase]
    by_cases hn : n = ns
    · simp [hn]
    · simp [hn, h.sees_iff]
  inhabited := inhabited_scrub g ns

theorem Mirrors.mem_iff (h : Mirrors g records subjects) (a n : String) :
    (∃ names, g.get? a = some names ∧ n ∈ names) ↔
      ∃ r, records.get? n = some r ∧ a ∈ subjects r := by
  refine Iff.trans ?_ (h.sees_iff a n)
  rw [sees]
  cases g.get? a with
  | none => simp
  | some names => simp [Membership.mem]

theorem Mirrors.exists_mem (h : Mirrors g records subjects) (a : String) (names : NameSet)
    (ha : g.get? a = some names) : ∃ n, n ∈ names :=
  NameSet.isEmpty_eq_false_iff.1 (h.inhabited a names ha)

/-- How many subjects the records name, each counted once. -/
def distinct (records : Table Record) (subjects : Record → NameSet) : Nat :=
  (records.values.flatMap fun r => (subjects r).toList).dedup.length

theorem Mirrors.size_eq (h : Mirrors g records subjects) : g.size = distinct records subjects := by
  have hmem : ∀ a, a ∈ g.keys ↔
      a ∈ (records.values.flatMap fun r => (subjects r).toList).dedup := by
    intro a
    rw [List.mem_dedup, List.mem_flatMap, Table.mem_keys_iff, Table.contains_eq_true_iff]
    constructor
    · rintro ⟨names, hnames⟩
      obtain ⟨n, hn⟩ := NameSet.isEmpty_eq_false_iff.1 (h.inhabited a names hnames)
      obtain ⟨r, hr, ha⟩ := (h.sees_iff a n).1 (by simpa [sees, hnames] using hn)
      exact ⟨r, Table.mem_values_iff.2 ⟨n, hr⟩, NameSet.mem_toList.2 ha⟩
    · rintro ⟨r, hr, ha⟩
      obtain ⟨n, hn⟩ := Table.mem_values_iff.1 hr
      have hsees := (h.sees_iff a n).2 ⟨r, hn, NameSet.mem_toList.1 ha⟩
      rw [sees] at hsees
      cases hg : g.get? a with
      | none => simp [hg] at hsees
      | some names => exact ⟨names, rfl⟩
  rw [Table.size_eq_length_keys, distinct]
  exact ((List.perm_ext_iff_of_nodup g.nodup_keys (List.nodup_dedup _)).2 hmem).length_eq

end Visibility.Subjects
