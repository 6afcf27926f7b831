import Visibility.Proofs.Scope

namespace Visibility.Scope

/-- A scope names a namespace, under a cluster role that exists. -/
def Targets (roleExists : String → Bool) (ns scope : String) : Prop :=
  ∃ role, role? scope = some (role, ns) ∧ roleExists role = true

/-- A scope leaves everything visible. -/
def GrantsAll (roleExists : String → Bool) (scope : String) : Prop :=
  scope = "user:full" ∨ scope = "user:list-projects" ∨ Targets roleExists "*" scope

/-- What a role scope says after `role:` and before the one `:!` that may end it. -/
inductive Says : String → String → Prop
  | escaped (text : String) : Says ("role:" ++ text ++ ":!") text
  | plain (text : String) : ¬[':', '!'] <:+ text.toList → Says ("role:" ++ text) text

variable {roleExists : String → Bool} {scope role ns : String} {scopes scopes' : List String}

theorem Visible.ext {v v' : Visible} (hall : v = .all ↔ v' = .all)
    (h : ∀ ns, v.contains ns = v'.contains ns) : v = v' := by
  cases v with
  | all => exact (hall.1 rfl).symm
  | only names =>
      cases v' with
      | all => exact hall.2 rfl
      | only names' => exact congrArg only (NameSet.ext_contains h)

theorem Visible.union_eq_all_iff {v v' : Visible} : v.union v' = .all ↔ v = .all ∨ v' = .all := by
  cases v <;> cases v' <;> simp [union]

theorem foldl_union_eq_all_iff {vs : List Visible} {v : Visible} :
    vs.foldl .union v = .all ↔ v = .all ∨ .all ∈ vs := by
  induction vs generalizing v with
  | nil => simp
  | cons v' vs ih =>
      rw [List.foldl_cons, ih, Visible.union_eq_all_iff, List.mem_cons, or_assoc, eq_comm (b := v')]

theorem granted_eq_all_iff : granted roleExists scope = .all ↔ GrantsAll roleExists scope := by
  rw [granted, GrantsAll, ← or_assoc]
  by_cases hfull : scope = "user:full" ∨ scope = "user:list-projects"
  · rw [if_pos hfull, iff_true_left rfl]
    exact .inl hfull
  rw [if_neg hfull, or_iff_right hfull, Targets]
  cases role? scope with
  | none =>
      constructor
      · intro h
        cases h
      · rintro ⟨_, h, -⟩
        cases h
  | some x =>
      obtain ⟨role, target⟩ := x
      dsimp only
      constructor
      · intro h
        split at h
        · cases h
        · rename_i hrole
          split at h
          · rename_i htarget
            rw [htarget]
            exact ⟨role, rfl, by simpa using hrole⟩
          · cases h
      · rintro ⟨_, ⟨⟩, hrole⟩
        rw [if_neg (by rw [hrole]; exact Bool.false_ne_true), if_pos rfl]

theorem visible_eq_all_iff :
    visible roleExists scopes = .all ↔ scopes = [] ∨ ∃ scope ∈ scopes, GrantsAll roleExists scope := by
  rw [visible]
  cases scopes with
  | nil => simp
  | cons scope scopes =>
      rw [if_neg (by simp), foldl_union_eq_all_iff, List.mem_map]
      simp only [granted_eq_all_iff, Visible.nothing, reduceCtorEq, false_or]

theorem grants_iff : Grants roleExists ns scope ↔ GrantsAll roleExists scope ∨ Targets roleExists ns scope := by
  have hrole : (∃ role target, role? scope = some (role, target) ∧ roleExists role = true ∧
      (target = "*" ∨ target = ns)) ↔ Targets roleExists "*" scope ∨ Targets roleExists ns scope := by
    constructor
    · rintro ⟨role, target, hscope, hexists, rfl | rfl⟩
      · exact .inl ⟨role, hscope, hexists⟩
      · exact .inr ⟨role, hscope, hexists⟩
    · rintro (⟨role, hscope, hexists⟩ | ⟨role, hscope, hexists⟩)
      · exact ⟨role, _, hscope, hexists, .inl rfl⟩
      · exact ⟨role, _, hscope, hexists, .inr rfl⟩
  rw [Grants, GrantsAll, hrole, or_assoc, or_assoc]

theorem exists_visible_eq_only (h : visible roleExists scopes ≠ .all) :
    ∃ names, visible roleExists scopes = .only names ∧
      ∀ ns, names.contains ns = true ↔ ∃ scope ∈ scopes, Targets roleExists ns scope := by
  cases hvisible : visible roleExists scopes with
  | all => exact absurd hvisible h
  | only names =>
      refine ⟨names, rfl, fun ns => ?_⟩
      have hcontains := @contains_visible_iff roleExists scopes ns
      rw [Ne, visible_eq_all_iff, not_or, not_exists] at h
      rw [hvisible, Visible.contains, Allow, or_iff_right h.1] at hcontains
      rw [hcontains]
      refine exists_congr fun scope => and_congr_right fun hscope => ?_
      rw [grants_iff, or_iff_right fun hall => h.2 scope ⟨hscope, hall⟩]

theorem visible_eq_of_mem_iff (h : ∀ scope, scope ∈ scopes ↔ scope ∈ scopes') :
    visible roleExists scopes = visible roleExists scopes' := by
  have hnil : scopes = [] ↔ scopes' = [] := by
    rw [List.eq_nil_iff_forall_not_mem, List.eq_nil_iff_forall_not_mem]
    exact forall_congr' fun scope => not_congr (h scope)
  refine Visible.ext ?_ fun ns => ?_
  · simp only [visible_eq_all_iff, h, hnil]
  · rw [Bool.eq_iff_iff, contains_visible_iff, contains_visible_iff]
    simp only [Allow, h, hnil]

theorem contains_visible_of_subset (hne : scopes ≠ []) (hsub : scopes ⊆ scopes')
    (h : (visible roleExists scopes).contains ns = true) :
    (visible roleExists scopes').contains ns = true := by
  rw [contains_visible_iff] at h ⊢
  obtain hnil | ⟨scope, hscope, hgrants⟩ := h
  · exact absurd hnil hne
  · exact .inr ⟨scope, hsub hscope, hgrants⟩

theorem exists_says_iff :
    (∃ text, Says scope text ∧ text = role ++ ":" ++ ns ∧ ':' ∉ ns.toList ∧ role ≠ "" ∧ ns ≠ "") ↔
      RoleScope role ns scope := by
  have htext : (role ++ ":" ++ ns).toList = role.toList ++ ':' :: ns.toList := by simp
  have hsuffix : ns ≠ "" → ':' ∉ ns.toList → ([':', '!'] <:+ (role ++ ":" ++ ns).toList ↔ ns = "!") := by
    intro hns hcolon
    have hbang : ns.toList = ['!'] ↔ ns = "!" := by
      rw [← String.toList_inj]
      rfl
    rw [htext, escaped_suffix_iff (by rwa [Ne, String.toList_eq_nil_iff]) hcolon, hbang]
  constructor
  · rintro ⟨text, hsays, rfl, hcolon, hrole, hns⟩
    refine ⟨hrole, hns, hcolon, ?_⟩
    cases hsays with
    | escaped =>
        refine .inl ?_
        simp only [String.append_assoc]
    | plain _ hplain =>
        refine .inr ⟨?_, fun h => hplain ((hsuffix hns hcolon).2 h)⟩
        simp only [String.append_assoc]
  · rintro ⟨hrole, hns, hcolon, rfl | ⟨rfl, hbang⟩⟩
    · refine ⟨role ++ ":" ++ ns, ?_, rfl, hcolon, hrole, hns⟩
      have h := Says.escaped (role ++ ":" ++ ns)
      simpa only [String.append_assoc] using h
    · refine ⟨role ++ ":" ++ ns, ?_, rfl, hcolon, hrole, hns⟩
      have h := Says.plain (role ++ ":" ++ ns) (by rwa [hsuffix hns hcolon])
      simpa only [String.append_assoc] using h

/-- Without scopes, with a scope that grants everything, or with one for `*` under a cluster role that exists,
everything is visible; otherwise it is what the scopes name under such roles. A role scope is divided at the last
colon that is left without its `:!`. Order and repetition of scopes mean nothing, and a further scope hides
nothing from a user who has one. -/
theorem visible_exact (roleExists : String → Bool) :
    (∀ u : User,
      (visible roleExists u.scopes = .all ↔
        u.scopes = [] ∨ ∃ scope ∈ u.scopes, GrantsAll roleExists scope) ∧
      (visible roleExists u.scopes ≠ .all → ∃ names, visible roleExists u.scopes = .only names ∧
        ∀ ns, names.contains ns = true ↔ ∃ scope ∈ u.scopes, Targets roleExists ns scope)) ∧
    (∀ scope role ns, role? scope = some (role, ns) ↔
      ∃ text, Says scope text ∧ text = role ++ ":" ++ ns ∧ ':' ∉ ns.toList ∧ role ≠ "" ∧ ns ≠ "") ∧
    (∀ role ns, role ≠ "" → ns ≠ "" → ':' ∉ ns.toList → ns ≠ "!" →
      role? ("role:" ++ role ++ ":" ++ ns) = some (role, ns) ∧
      role? ("role:" ++ role ++ ":" ++ ns ++ ":!") = some (role, ns)) ∧
    (∀ u u' : User, (∀ scope, scope ∈ u.scopes ↔ scope ∈ u'.scopes) →
      visible roleExists u.scopes = visible roleExists u'.scopes) ∧
    (∀ u u' : User, u.scopes ≠ [] → u.scopes ⊆ u'.scopes → ∀ ns,
      (visible roleExists u.scopes).contains ns = true →
      (visible roleExists u'.scopes).contains ns = true) := by
  refine ⟨fun u => ⟨visible_eq_all_iff, exists_visible_eq_only⟩, fun scope role ns => ?_,
    fun role ns hrole hns hcolon hbang => ⟨?_, ?_⟩, fun u u' h => visible_eq_of_mem_iff h,
    fun u u' hne hsub ns h => contains_visible_of_subset hne hsub h⟩
  · rw [role?_eq_some_iff, exists_says_iff]
  · exact role?_eq_some_iff.2 ⟨hrole, hns, hcolon, .inr ⟨rfl, hbang⟩⟩
  · exact role?_eq_some_iff.2 ⟨hrole, hns, hcolon, .inl rfl⟩

/-- A world with one cluster role, whose name has a colon in it. -/
def sampleRoles (role : String) : Bool := role = "a:b"

def sampleUser (scopes : List String) : User := ({ name := "u" } : User).withScopes scopes

theorem visible_exact_sample :
    (∃ names, visible sampleRoles (sampleUser ["user:info", "role:a:!", "role:a:b:ns:!"]).scopes = .only names ∧
      ∀ ns, names.contains ns = true ↔
        ∃ scope ∈ (sampleUser ["user:info", "role:a:!", "role:a:b:ns:!"]).scopes, Targets sampleRoles ns scope) ∧
    (role? "role:a:b:ns" = some ("a:b", "ns") ∧ role? "role:a:b:ns:!" = some ("a:b", "ns")) ∧
    visible sampleRoles (sampleUser ["role:a:b:ns:!", "user:info", "role:a:!", "user:info"]).scopes =
      visible sampleRoles (sampleUser ["user:info", "role:a:!", "role:a:b:ns:!"]).scopes ∧
    (visible sampleRoles (sampleUser ["role:a:b:ns:!"]).scopes).contains "ns" = true ∧
    (visible sampleRoles (sampleUser ["user:info", "role:a:!", "role:a:b:ns:!"]).scopes).contains "ns" = true := by
  have h := visible_exact sampleRoles
  have hcontains : (visible sampleRoles (sampleUser ["role:a:b:ns:!"]).scopes).contains "ns" = true := by
    decide +kernel
  refine ⟨(h.1 _).2 (by decide +kernel), ?_, h.2.2.2.1 _ _ fun scope => ?_, hcontains, ?_⟩
  · exact h.2.2.1 "a:b" "ns" (by decide) (by decide) (by decide) (by decide)
  · simp only [sampleUser, User.scopes_withScopes, List.mem_cons, List.not_mem_nil, or_false]
    tauto
  · exact h.2.2.2.2 _ _ (by decide +kernel) (by decide +kernel) "ns" hcontains

end Visibility.Scope
