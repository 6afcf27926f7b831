import Visibility.Proofs.Label.Parser

namespace Visibility.Label

open Text (Spaced blank_nil)

/-- The requirement that a label has a value. -/
def Requirement.equals (e : String × String) : Requirement := ⟨e.1, .isIn, NameSet.ofList [e.2]⟩

/-- The texts that ask for a label with a value. -/
inductive Spells : String × String → String → Prop
  | single (k v : String) : Spells (k, v) (k ++ "=" ++ v)
  | double (k v : String) : Spells (k, v) (k ++ "==" ++ v)
  | set (k : String) {v : String} : v ≠ "" → Spells (k, v) (k ++ " in (" ++ v ++ ")")

/-- A list of entries holds those of a table, in any order and as often as it likes. -/
def Lists (es : List (String × String)) (t : Table String) : Prop :=
  ∀ k v, (k, v) ∈ es ↔ t.get? k = some v

variable {es : List (String × String)} {t : Table String}

theorem Requirement.admits_equals (e : String × String) (labels : Table String) :
    (equals e).admits labels = decide (labels.get? e.1 = some e.2) := by
  rw [admits, equals]
  cases labels.get? e.1 with
  | none => rfl
  | some v => simp [NameSet.contains_ofList]

theorem Lists.selects_eq (h : Lists es t) (labels : Table String) :
    (Selector.ofRequirements (es.map .equals)).selects labels = (Selector.ofLabels t).selects labels := by
  have hmem : ∀ e, e ∈ t.entries ↔ e ∈ es := fun e => Table.mem_entries_iff.trans (h e.1 e.2).symm
  rw [Selector.selects_ofRequirements, Selector.selects_ofLabels, List.all_map, Bool.eq_iff_iff, List.all_eq_true,
    List.all_eq_true]
  simp only [Function.comp_apply, Requirement.admits_equals, hmem]

theorem Spells.writes {e : String × String} {s : String} (h : Spells e s) (hk : KeyText e.1)
    (hv : ValueText e.2) : Writes (.equals e) s.toList := by
  cases h with
  | single k v =>
      have hs : Spaced [k.toList, ['='], v.toList] (k ++ "=" ++ v).toList := by
        simpa using Spaced.flatten [k.toList, ['='], v.toList]
      exact .compare hk hv .single hs
  | double k v =>
      have hs : Spaced [k.toList, ['=', '='], v.toList] (k ++ "==" ++ v).toList := by
        simpa using Spaced.flatten [k.toList, ['=', '='], v.toList]
      exact .compare hk hv .double hs
  | @set k v hne =>
      have hset : Spaced (setTokens [v]) ([' '] ++ ['('] ++ (v.toList ++ [')'])) :=
        .token (fun c hc => by rw [List.mem_singleton.1 hc]; rfl) (by simpa using Spaced.flatten [v.toList, [')']])
      have hword : Spaced (['i', 'n'] :: setTokens [v])
          ([] ++ ['i', 'n'] ++ ([' '] ++ ['('] ++ (v.toList ++ [')']))) := .token blank_nil hset
      have htext : (k ++ " in (" ++ v ++ ")").toList =
          k.toList ++ ' ' :: ([] ++ ['i', 'n'] ++ ([' '] ++ ['('] ++ (v.toList ++ [')']))) := by
        simp
      rw [htext]
      refine .set hk (List.cons_ne_nil _ _) (fun v' hv' => ?_) .isIn (.single _) rfl hword
      rw [List.mem_singleton.1 hv']
      exact ⟨hne, hv⟩

theorem written_of_spells {parts : List String} (h : List.Forall₂ Spells es parts)
    (hes : ∀ e ∈ es, KeyText e.1 ∧ ValueText e.2) :
    Written (es.map .equals) (",".intercalate parts).toList := by
  refine ⟨parts.map String.toList, ?_, String.toList_intercalate⟩
  rw [List.forall₂_map_left_iff, List.forall₂_map_right_iff]
  induction h with
  | nil => exact .nil
  | cons hspells _ ih =>
      rw [List.forall_mem_cons] at hes
      exact .cons (hspells.writes hes.1.1 hes.1.2) (ih hes.2)

theorem Requirement.admits_notIn (key : String) (values : NameSet) (labels : Table String) :
    admits ⟨key, .notIn, values⟩ labels = !admits ⟨key, .isIn, values⟩ labels := by
  rw [admits, admits]
  cases labels.get? key with
  | none => rfl
  | some v => rfl

theorem Requirement.admits_absent (key : String) (values values' : NameSet) (labels : Table String) :
    admits ⟨key, .absent, values⟩ labels = !admits ⟨key, .present, values'⟩ labels := by
  rw [admits, admits]
  cases labels.get? key with
  | none => rfl
  | some v => rfl

theorem Selector.selects_singleton (r : Requirement) (labels : Table String) :
    (ofRequirements [r]).selects labels = r.admits labels := by
  rw [selects_ofRequirements, List.all_cons, List.all_nil, Bool.and_true]

namespace Selector

/-- A label that is asked for is the requirement that has its value as the only one, in whatever order the labels
are asked for and however often. Such requirements can be written if there are any and their keys and values are
those of labels, and each spelling of them is read back. Of two operators that differ by a negation, one requirement
is met exactly if the other is not. -/
theorem selects_ofLabels_exact :
    (∀ (t : Table String) (es : List (String × String)), Lists es t →
      (∀ labels, (ofRequirements (es.map .equals)).selects labels = (ofLabels t).selects labels) ∧
      (t ≠ ∅ → (∀ k v, t.get? k = some v → KeyText k ∧ ValueText v) →
        ∀ parts, List.Forall₂ Spells es parts →
          ∃ s, parse (",".intercalate parts) = .ok s ∧
            ∀ labels, s.selects labels = (ofLabels t).selects labels)) ∧
    ∀ (key : String) (values values' : NameSet) (labels : Table String),
      (ofRequirements [⟨key, .notIn, values⟩]).selects labels =
        !(ofRequirements [⟨key, .isIn, values⟩]).selects labels ∧
      (ofRequirements [⟨key, .absent, values⟩]).selects labels =
        !(ofRequirements [⟨key, .present, values'⟩]).selects labels := by
  refine ⟨fun t es h => ⟨h.selects_eq, fun hne hvalid parts hparts => ?_⟩, fun key values values' labels => ?_⟩
  · have hes : es ≠ [] := by
      rintro rfl
      refine hne (Table.ext_get? fun k => Option.eq_none_iff_forall_ne_some.2 fun v hv => ?_)
      exact List.not_mem_nil ((h k v).2 hv)
    have hwritten := written_of_spells hparts fun e he => hvalid e.1 e.2 ((h e.1 e.2).1 he)
    have hrs : es.map Requirement.equals ≠ [] := fun hnil => hes (List.map_eq_nil_iff.1 hnil)
    exact ⟨_, parse_eq_ok_iff.2 (.inr ⟨_, hrs, hwritten, rfl⟩), h.selects_eq⟩
  · rw [selects_singleton, selects_singleton, selects_singleton, selects_singleton]
    exact ⟨Requirement.admits_notIn key values labels, Requirement.admits_absent key values values' labels⟩

/-- Two labels, one of them with an empty value. -/
def sampleLabels : Table String := Table.ofList [("env", "prod"), ("tier", "")]

/-- The entries of the sample, more than once. -/
def sampleEntries : List (String × String) := [("tier", ""), ("env", "prod"), ("env", "prod"), ("tier", "")]

theorem selects_ofLabels_exact_sample :
    Lists sampleEntries sampleLabels ∧ sampleLabels ≠ ∅ ∧
      ∃ s, parse (",".intercalate ["tier=", "env in (prod)", "env==prod", "tier=="]) = .ok s ∧
        ∀ labels, s.selects labels = (ofLabels sampleLabels).selects labels := by
  have hlists : Lists sampleEntries sampleLabels := by
    intro k v
    simp only [sampleEntries, sampleLabels, Table.ofList, List.foldl_cons, List.foldl_nil, Table.get?_insert,
      List.mem_cons, Prod.mk.injEq, List.not_mem_nil, or_false]
    by_cases htier : k = "tier"
    · simp [htier, eq_comm]
    · by_cases henv : k = "env" <;> simp [htier, henv, eq_comm]
  have hne : sampleLabels ≠ ∅ := by decide +kernel
  have hvalid : ∀ k v, sampleLabels.get? k = some v → KeyText k ∧ ValueText v := by
    intro k v hkv
    have hmem := (hlists k v).2 hkv
    have hall : ∀ e ∈ sampleEntries, KeyText e.1 ∧ ValueText e.2 := by decide +kernel
    exact hall (k, v) hmem
  have hspells : List.Forall₂ Spells sampleEntries ["tier=", "env in (prod)", "env==prod", "tier=="] :=
    .cons (.single "tier" "") (.cons (.set "env" (by decide)) (.cons (.double "env" "prod")
      (.cons (.double "tier" "") .nil)))
  exact ⟨hlists, hne, (selects_ofLabels_exact.1 _ _ hlists).2 hne hvalid _ hspells⟩

end Selector

end Visibility.Label
