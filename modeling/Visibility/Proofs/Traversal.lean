import Mathlib.Data.List.Forall2

namespace Visibility

variable {α β ε : Type} {f : α → Except ε β} {l : List α}

theorem bind_eq_ok_iff {x : Except ε α} {g : α → Except ε β} {b : β} :
    x >>= g = .ok b ↔ ∃ a, x = .ok a ∧ g a = .ok b := by
  cases x with
  | error e => exact ⟨nofun, nofun⟩
  | ok a => exact ⟨fun h => ⟨a, rfl, h⟩, fun ⟨_, ha, h⟩ => by cases ha; exact h⟩

theorem mapM_eq_ok_iff {ys : List β} :
    l.mapM f = .ok ys ↔ l.map f = ys.map .ok := by
  induction l generalizing ys with
  | nil => cases ys <;> simp [pure, Except.pure]
  | cons x l ih =>
      rw [List.mapM_cons]
      cases hx : f x with
      | error e => cases ys <;> simp [bind, Except.bind, hx]
      | ok y =>
          cases hl : l.mapM f with
          | error e => cases ys <;> simp [bind, Except.bind, hx, ← ih, hl]
          | ok ys' => cases ys <;> simp [bind, Except.bind, pure, Except.pure, hx, ← ih, hl]

theorem exists_mapM_eq_ok_iff :
    (∃ ys, l.mapM f = .ok ys) ↔ ∀ x ∈ l, ∃ y, f x = .ok y := by
  simp only [mapM_eq_ok_iff]
  constructor
  · rintro ⟨ys, h⟩ x hx
    obtain ⟨y, -, hy⟩ := List.mem_map.1 (h ▸ List.mem_map_of_mem hx)
    exact ⟨y, hy.symm⟩
  · intro h
    induction l with
    | nil => exact ⟨[], rfl⟩
    | cons x l ih =>
        rw [List.forall_mem_cons] at h
        obtain ⟨y, hy⟩ := h.1
        obtain ⟨ys, hys⟩ := ih h.2
        exact ⟨y :: ys, by rw [List.map_cons, hy, hys, List.map_cons]⟩

theorem mapM_eq_ok_iff_forall₂ {ys : List β} :
    l.mapM f = .ok ys ↔ List.Forall₂ (fun y x => f x = .ok y) ys l := by
  rw [mapM_eq_ok_iff, eq_comm, ← List.forall₂_eq_eq_eq, List.forall₂_map_left_iff,
    List.forall₂_map_right_iff]
  simp only [eq_comm]

theorem map_eq_error_iff {x : Except ε α} {g : α → β} {e : ε} : x.map g = .error e ↔ x = .error e := by
  cases x with
  | error e' => simp [Except.map]
  | ok a => exact ⟨nofun, nofun⟩

theorem bind_ne_error {x : Except ε α} {g : α → Except ε β} {e : ε} (hx : x ≠ .error e)
    (hg : ∀ a, g a ≠ .error e) : x >>= g ≠ .error e := by
  cases x with
  | error e' => exact fun h => hx (congrArg _ (Except.error.inj h))
  | ok a => exact hg a

theorem mapM_ne_error {e : ε} (h : ∀ x, f x ≠ .error e) (l : List α) : l.mapM f ≠ .error e := by
  induction l with
  | nil => exact nofun
  | cons x l ih =>
      rw [List.mapM_cons]
      exact bind_ne_error (h x) fun y => bind_ne_error ih fun ys => nofun

theorem exists_of_mem_right {R : α → β → Prop} {m : List β} (h : List.Forall₂ R l m) {b : β} (hb : b ∈ m) :
    ∃ a ∈ l, R a b := by
  induction h with
  | nil => cases hb
  | @cons a b' l m hab _ ih =>
      obtain rfl | hb := List.mem_cons.1 hb
      · exact ⟨a, List.mem_cons_self, hab⟩
      · obtain ⟨a', ha', hab'⟩ := ih hb
        exact ⟨a', List.mem_cons_of_mem _ ha', hab'⟩

end Visibility
