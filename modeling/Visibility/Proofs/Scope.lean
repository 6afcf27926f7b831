import Mathlib.Data.List.TakeDrop
import Mathlib.Data.List.TakeWhile
import Visibility.Scope
import Visibility.Table.Lemmas

namespace Visibility

theorem User.scopes_withScopes (u : User) (scopes : List String) : (u.withScopes scopes).scopes = scopes := by
  rw [User.scopes, User.withScopes, Table.get?_insert, if_pos rfl, Option.getD_some]

namespace Scope

/-- A scope grants a namespace. -/
def Grants (roleExists : String → Bool) (ns scope : String) : Prop :=
  scope = "user:full" ∨ scope = "user:list-projects" ∨
    ∃ role target, role? scope = some (role, target) ∧ roleExists role = true ∧
      (target = "*" ∨ target = ns)

/-- The scopes of a user allow a namespace; no scope means no restriction. -/
def Allow (roleExists : String → Bool) (scopes : List String) (ns : String) : Prop :=
  scopes = [] ∨ ∃ scope ∈ scopes, Grants roleExists ns scope

variable {roleExists : String → Bool}

theorem Visible.contains_union (v v' : Visible) (ns : String) :
    (v.union v').contains ns = (v.contains ns || v'.contains ns) := by
  cases v with
  | all => rfl
  | only names =>
      cases v' with
      | all => exact (Bool.or_true _).symm
      | only names' => exact NameSet.contains_union names names' ns

theorem contains_foldl_union (vs : List Visible) (v : Visible) (ns : String) :
    (vs.foldl .union v).contains ns = (v.contains ns || vs.any (·.contains ns)) := by
  induction vs generalizing v with
  | nil => exact (Bool.or_false _).symm
  | cons v' vs ih => rw [List.foldl_cons, ih, Visible.contains_union, List.any_cons, Bool.or_assoc]

theorem contains_granted_iff (scope ns : String) :
    (granted roleExists scope).contains ns = true ↔ Grants roleExists ns scope := by
  rw [granted, Grants, ← or_assoc]
  by_cases hfull : scope = "user:full" ∨ scope = "user:list-projects"
  · simp [hfull, Visible.contains]
  rw [if_neg hfull, or_iff_right hfull]
  cases role? scope with
  | none => exact ⟨nofun, nofun⟩
  | some x =>
      obtain ⟨role, target⟩ := x
      have hparsed : (∃ role' target', some (role, target) = some (role', target') ∧
          roleExists role' = true ∧ (target' = "*" ∨ target' = ns)) ↔
          roleExists role = true ∧ (target = "*" ∨ target = ns) := by
        constructor
        · rintro ⟨_, _, ⟨⟩, h⟩
          exact h
        · exact fun h => ⟨role, target, rfl, h⟩
      rw [hparsed]
      dsimp only
      cases roleExists role with
      | false => exact ⟨nofun, nofun⟩
      | true =>
          by_cases hall : target = "*"
          · simp [hall, Visible.contains]
          · rw [if_neg (by simp), if_neg hall, Visible.contains, NameSet.contains_ofList,
              decide_eq_true_iff, List.mem_singleton, or_iff_right hall, eq_comm]
            exact (and_iff_right rfl).symm

theorem contains_visible_iff (scopes : List String) (ns : String) :
    (visible roleExists scopes).contains ns = true ↔ Allow roleExists scopes ns := by
  rw [visible, Allow]
  cases scopes with
  | nil => simp [Visible.contains]
  | cons scope scopes =>
      rw [if_neg (by simp), contains_foldl_union, Visible.nothing, Visible.contains,
        NameSet.contains_empty, Bool.false_or, List.any_map, List.any_eq_true]
      simp only [reduceCtorEq, false_or, Function.comp_apply, contains_granted_iff]

theorem cutLastColon?_eq_some_iff {s x y : List Char} :
    cutLastColon? s = some (x, y) ↔ s = x ++ ':' :: y ∧ ':' ∉ y := by
  rw [cutLastColon?, List.span_eq_takeWhile_dropWhile]
  constructor
  · intro h
    split at h
    · cases h
    · rename_i back c front hspan
      rw [Prod.mk.injEq] at hspan
      cases h
      have hs : s.reverse = back ++ c :: front := by
        rw [← hspan.1, ← hspan.2, List.takeWhile_append_dropWhile]
      have hc : c = ':' := by
        have hhead := List.head?_dropWhile_not (fun c : Char => decide (c ≠ ':')) s.reverse
        rw [hspan.2] at hhead
        simpa using hhead
      refine ⟨?_, ?_⟩
      · rw [← List.reverse_reverse s, hs, hc]
        simp
      · rw [List.mem_reverse, ← hspan.1]
        intro hmem
        have hne := List.mem_takeWhile_imp hmem
        simp at hne
  · rintro ⟨rfl, hy⟩
    have hpos : ∀ c ∈ y.reverse, decide (c ≠ ':') = true := by
      intro c hc
      rw [decide_eq_true_iff]
      rintro rfl
      exact hy (List.mem_reverse.1 hc)
    rw [List.reverse_append, List.reverse_cons, List.append_assoc, List.takeWhile_append_of_pos hpos,
      List.dropWhile_append_of_pos hpos]
    simp

theorem dropEscalation_append (s : List Char) : dropEscalation (s ++ [':', '!']) = s := by
  rw [dropEscalation, List.reverse_append]
  exact List.reverse_reverse s

theorem dropEscalation_of_not_suffix {s : List Char} (h : ¬[':', '!'] <:+ s) : dropEscalation s = s := by
  unfold dropEscalation
  split
  · rename_i front hs
    refine absurd ⟨front.reverse, ?_⟩ h
    rw [← List.reverse_reverse s, hs]
    simp
  · rfl

/-- A scope names a cluster role and a namespace, with or without `:!` at the end. -/
structure RoleScope (role ns scope : String) : Prop where
  role_ne : role ≠ ""
  ns_ne : ns ≠ ""
  colon : ':' ∉ ns.toList
  eq : scope = "role:" ++ role ++ ":" ++ ns ++ ":!" ∨ scope = "role:" ++ role ++ ":" ++ ns ∧ ns ≠ "!"

theorem escaped_suffix_iff {x y : List Char} (hy : y ≠ []) (hcolon : ':' ∉ y) :
    [':', '!'] <:+ x ++ ':' :: y ↔ y = ['!'] := by
  constructor
  · rintro ⟨front, hfront⟩
    obtain ⟨y', c, rfl⟩ := (List.eq_nil_or_concat y).resolve_left hy
    have hlast : front ++ [':'] ++ ['!'] = x ++ ':' :: y' ++ [c] := by simpa using hfront
    obtain ⟨hrest, hc⟩ := List.append_inj' hlast rfl
    cases hc
    obtain rfl | ⟨y'', d, rfl⟩ := List.eq_nil_or_concat y'
    · rfl
    · have hlast : front ++ [':'] = x ++ ':' :: y'' ++ [d] := by simpa using hrest
      obtain ⟨-, hd⟩ := List.append_inj' hlast rfl
      cases hd
      exact absurd (by simp) hcolon
  · rintro rfl
    exact ⟨x, rfl⟩

/-- The last colon of a role scope, once its end is dropped, divides the role from the namespace. -/
theorem cutLastColon?_dropEscalation_iff {s x y : List Char} (hy : y ≠ []) :
    cutLastColon? (dropEscalation s) = some (x, y) ↔
      ':' ∉ y ∧ (s = x ++ ':' :: y ++ [':', '!'] ∨ s = x ++ ':' :: y ∧ y ≠ ['!']) := by
  by_cases hs : [':', '!'] <:+ s
  · obtain ⟨front, rfl⟩ := hs
    rw [dropEscalation_append, cutLastColon?_eq_some_iff, List.append_cancel_right_eq, and_comm]
    refine and_congr_right fun hcolon => ?_
    constructor
    · exact .inl
    · rintro (h | ⟨h, hne⟩)
      · exact h
      · exact absurd ((escaped_suffix_iff hy hcolon).1 ⟨front, h⟩) hne
  · rw [dropEscalation_of_not_suffix hs, cutLastColon?_eq_some_iff, and_comm]
    refine and_congr_right fun hcolon => ?_
    constructor
    · rintro rfl
      exact .inr ⟨rfl, fun h => hs ((escaped_suffix_iff hy hcolon).2 h)⟩
    · rintro (h | ⟨h, -⟩)
      · exact absurd ⟨_, h.symm⟩ hs
      · exact h

theorem role?_eq_of_cut {scope : String} {rest x y : List Char}
    (hscope : scope.toList = 'r' :: 'o' :: 'l' :: 'e' :: ':' :: rest)
    (hcut : cutLastColon? (dropEscalation rest) = some (x, y)) (hx : x ≠ []) (hy : y ≠ []) :
    role? scope = some (String.ofList x, String.ofList y) := by
  unfold role?
  split
  · rename_i rest' hrest
    rw [hscope] at hrest
    cases hrest
    simp [hcut, hx, hy]
  · rename_i hnot
    exact absurd hscope (hnot rest)

theorem role?_eq_some_iff {scope role ns : String} :
    role? scope = some (role, ns) ↔ RoleScope role ns scope := by
  have hescaped : scope = "role:" ++ role ++ ":" ++ ns ++ ":!" ↔
      scope.toList = 'r' :: 'o' :: 'l' :: 'e' :: ':' :: (role.toList ++ ':' :: ns.toList ++ [':', '!']) := by
    rw [← String.toList_inj]
    simp
  have hplain : scope = "role:" ++ role ++ ":" ++ ns ↔
      scope.toList = 'r' :: 'o' :: 'l' :: 'e' :: ':' :: (role.toList ++ ':' :: ns.toList) := by
    rw [← String.toList_inj]
    simp
  have hbang : ns.toList ≠ ['!'] ↔ ns ≠ "!" := by
    rw [← String.toList_inj.ne]
    rfl
  constructor
  · intro h
    unfold role? at h
    split at h
    · rename_i rest hscope
      split at h
      · rename_i x y hcut
        split at h
        · cases h
        · rename_i hne
          simp only [Bool.or_eq_true, List.isEmpty_iff, not_or] at hne
          cases h
          obtain ⟨hcolon, hrest⟩ := (cutLastColon?_dropEscalation_iff hne.2).1 hcut
          refine ⟨?_, ?_, ?_, ?_⟩
          · rw [Ne, String.ofList_eq_empty_iff]
            exact hne.1
          · rw [Ne, String.ofList_eq_empty_iff]
            exact hne.2
          · rwa [String.toList_ofList]
          · rw [hescaped, hplain, ← hbang, hscope]
            simp only [String.toList_ofList, List.cons.injEq, true_and]
            exact hrest
      · cases h
    · cases h
  · rintro ⟨hrole, hns, hcolon, hscope⟩
    have hrole' : role.toList ≠ [] := by rwa [Ne, String.toList_eq_nil_iff]
    have hns' : ns.toList ≠ [] := by rwa [Ne, String.toList_eq_nil_iff]
    have hread : ∀ {rest}, scope.toList = 'r' :: 'o' :: 'l' :: 'e' :: ':' :: rest →
        (rest = role.toList ++ ':' :: ns.toList ++ [':', '!'] ∨
          rest = role.toList ++ ':' :: ns.toList ∧ ns.toList ≠ ['!']) → role? scope = some (role, ns) := by
      intro rest hrest hform
      have hcut := (cutLastColon?_dropEscalation_iff hns').2 ⟨hcolon, hform⟩
      have h := role?_eq_of_cut hrest hcut hrole' hns'
      rwa [String.ofList_toList, String.ofList_toList] at h
    rw [hescaped, hplain, ← hbang] at hscope
    obtain hscope | ⟨hscope, hne⟩ := hscope
    · exact hread hscope (.inl rfl)
    · exact hread hscope (.inr ⟨rfl, hne⟩)

end Scope

end Visibility
