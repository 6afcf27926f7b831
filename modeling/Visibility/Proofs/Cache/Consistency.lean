import Visibility.Proofs.Cache.Subjects
import Visibility.Proofs.Cache.Touch
import Visibility.Proofs.System

namespace Visibility

open Subjects (Mirrors distinct)

/-- The index is the inverse of the records, and the measures are the sizes of what they measure. -/
structure Cache.Consistent (c : Cache) : Prop where
  users : Mirrors c.subjects.users c.records (·.users)
  groups : Mirrors c.subjects.groups c.records (·.groups)
  namespaces_measured : c.metrics.namespaces = c.records.size
  users_measured : c.metrics.users = c.subjects.users.size
  groups_measured : c.metrics.groups = c.subjects.groups.size

namespace Cache.Consistent

variable {c c' : Cache}

theorem empty : Cache.Consistent {} where
  users := Subjects.mirrors_empty
  groups := Subjects.mirrors_empty
  namespaces_measured := rfl
  users_measured := rfl
  groups_measured := rfl

theorem commit (h : c.Consistent) (ns : String) (r : Record) : (c.commit ns r).1.Consistent where
  users := h.users.commit ns r
  groups := h.groups.commit ns r
  namespaces_measured := rfl
  users_measured := rfl
  groups_measured := rfl

theorem remove (h : c.Consistent) (ns : String) : (c.remove ns).1.Consistent := by
  cases hr : c.records.get? ns with
  | none => rwa [Cache.remove_of_none hr]
  | some r =>
      rw [Cache.remove_of_some hr]
      exact ⟨h.users.scrub ns, h.groups.scrub ns, rfl, rfl, rfl⟩

theorem alike (h : c.Consistent) (ha : c.Alike c') : c'.Consistent where
  users := by rw [ha.subjects, ha.records]; exact h.users
  groups := by rw [ha.subjects, ha.records]; exact h.groups
  namespaces_measured := by rw [ha.namespaces, ha.records, h.namespaces_measured]
  users_measured := by rw [ha.users, ha.subjects, h.users_measured]
  groups_measured := by rw [ha.groups, ha.subjects, h.groups_measured]

theorem touch {e : Option Effect} (h : c.Consistent) (ht : c.Touch e c') : c'.Consistent := by
  cases ht with
  | commit ns r => exact h.commit ns r
  | remove ns r hr => exact h.remove ns
  | keep he ha => exact h.alike ha

end Cache.Consistent

namespace System

theorem Reachable.consistent {allowed : System → Event → Prop} {s : System}
    (h : Reachable allowed s) : s.cache.Consistent := by
  induction h with
  | init => exact .empty
  | @next s e _ _ ih =>
      cases e with
      | change c => exact ih
      | launch l => exact ih
      | move i m =>
          simp only [System.next]
          cases s.attempts[i]? with
          | none => exact ih
          | some a => exact ih.touch (a.call.touch _ _)
      | watch w => exact ih.alike ⟨rfl, rfl, rfl, rfl, rfl⟩
      | unwatch w => exact ih.alike ⟨rfl, rfl, rfl, rfl, rfl⟩

/-- A namespace is listed under a user or a group if and only if its record names them, a subject
without namespaces has no entry, and the measures count records and subjects. -/
theorem index_inverse_of_reachable {s : System} (h : Reachable anything s) :
    (∀ u n, (∃ names, s.cache.subjects.users.get? u = some names ∧ n ∈ names) ↔
      ∃ r, s.cache.records.get? n = some r ∧ u ∈ r.users) ∧
    (∀ g n, (∃ names, s.cache.subjects.groups.get? g = some names ∧ n ∈ names) ↔
      ∃ r, s.cache.records.get? n = some r ∧ g ∈ r.groups) ∧
    (∀ u names, s.cache.subjects.users.get? u = some names → ∃ n, n ∈ names) ∧
    (∀ g names, s.cache.subjects.groups.get? g = some names → ∃ n, n ∈ names) ∧
    s.cache.metrics.namespaces = s.cache.records.size ∧
    s.cache.metrics.users = distinct s.cache.records (·.users) ∧
    s.cache.metrics.groups = distinct s.cache.records (·.groups) := by
  have hc := h.consistent
  refine ⟨hc.users.mem_iff, hc.groups.mem_iff, hc.users.exists_mem, hc.groups.exists_mem,
    hc.namespaces_measured, ?_, ?_⟩
  · rw [hc.users_measured, hc.users.size_eq]
  · rw [hc.groups_measured, hc.groups.size_eq]

theorem index_inverse_sample :
    Reachable anything sample ∧
      (∃ names, sample.cache.subjects.users.get? "u" = some names ∧ "a" ∈ names) ∧
      sample.cache.metrics.groups = distinct sample.cache.records (·.groups) := by
  have h : Reachable anything sample := reachable_sample (fun _ _ => trivial) (fun _ => trivial) fun _ => trivial
  obtain ⟨husers, -, -, -, -, -, hgroups⟩ := index_inverse_of_reachable h
  refine ⟨h, (husers "u" "a").2 ?_, hgroups⟩
  exact ⟨⟨NameSet.ofList ["u"], NameSet.ofList ["g"], sample.stores.hash "a"⟩, by decide +kernel,
    by decide⟩

end System

end Visibility
