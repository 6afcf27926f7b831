import Visibility.Label.Selector
import Visibility.Proofs.Text.Spaced
import Visibility.Proofs.Traversal
import Visibility.Table.Lemmas

namespace Visibility.Label

open Text (Blank Solid Spaced isBlank blank_append_iff blank_nil)

/-- Letters and digits of ASCII, and three signs. -/
def ValueChar (c : Char) : Prop :=
  ('A' ≤ c ∧ c ≤ 'Z') ∨ ('a' ≤ c ∧ c ≤ 'z') ∨ ('0' ≤ c ∧ c ≤ '9') ∨ c = '-' ∨ c = '_' ∨ c = '.'

def KeyChar (c : Char) : Prop := ValueChar c ∨ c = '/'

def KeyText (k : String) : Prop := 1 ≤ k.length ∧ k.length ≤ 317 ∧ ∀ c ∈ k.toList, KeyChar c

def ValueText (v : String) : Prop := v.length ≤ 63 ∧ ∀ c ∈ v.toList, ValueChar c

/-- The signs that compare a label with one value. -/
inductive Sign : Operator → List Char → Prop
  | single : Sign .isIn ['=']
  | double : Sign .isIn ['=', '=']
  | unequal : Sign .notIn ['!', '=']

/-- The words that go before a set of values. -/
inductive Word : Operator → List Char → Prop
  | isIn : Word .isIn ['i', 'n']
  | notIn : Word .notIn ['n', 'o', 't', 'i', 'n']

/-- The tokens of a set of values, in parentheses. -/
def setTokens (values : List String) : List (List Char) :=
  ['('] :: ((values.map String.toList).intersperse [','] ++ [[')']])

/-- A text writes a requirement. Only before the word of a set white space has to be. -/
inductive Writes : Requirement → List Char → Prop
  | present {k : String} {s : List Char} :
      KeyText k → Spaced [k.toList] s → Writes ⟨k, .present, ∅⟩ s
  | absent {k : String} {s : List Char} :
      KeyText k → Spaced [['!'], k.toList] s → Writes ⟨k, .absent, ∅⟩ s
  | compare {k v : String} {o : Operator} {sign s : List Char} :
      KeyText k → ValueText v → Sign o sign → Spaced [k.toList, sign, v.toList] s →
      Writes ⟨k, o, NameSet.ofList [v]⟩ s
  | set {k : String} {vs : List String} {o : Operator} {word s t : List Char} {c : Char} :
      KeyText k → vs ≠ [] → (∀ v ∈ vs, v ≠ "" ∧ ValueText v) → Word o word →
      Spaced [k.toList] s → isBlank c = true → Spaced (word :: setTokens vs) t →
      Writes ⟨k, o, NameSet.ofList vs⟩ (s ++ c :: t)

/-- A text writes requirements, one after the other, with commas between them. -/
def Written (rs : List Requirement) (s : List Char) : Prop :=
  ∃ parts, List.Forall₂ Writes rs parts ∧ s = [','].intercalate parts

/-- The requirements that can be written: there are values where they count, and the empty one only by itself. -/
structure Requirement.WellFormed (r : Requirement) : Prop where
  key : KeyText r.key
  values :
    match r.operator with
    | .present | .absent => r.values = ∅
    | .isIn | .notIn =>
        r.values ≠ ∅ ∧ (∀ v ∈ r.values.toList, ValueText v) ∧
          (r.values.contains "" = true → r.values = NameSet.ofList [""])

theorem KeyChar.isBlank_eq_false {c : Char} (h : KeyChar c) : isBlank c = false := by
  have hle : ∀ a b : Char, a ≤ b ↔ a.toNat ≤ b.toNat := fun _ _ => Iff.rfl
  simp only [KeyChar, ValueChar, hle] at h
  obtain (((h | h | h | rfl | rfl | rfl) | rfl)) := h
  · have h₁ : 65 ≤ c.toNat := h.1
    have h₂ : c.toNat ≤ 90 := h.2
    simp only [isBlank, Bool.or_eq_false_iff, Bool.and_eq_false_iff, decide_eq_false_iff_not]
    omega
  · have h₁ : 97 ≤ c.toNat := h.1
    have h₂ : c.toNat ≤ 122 := h.2
    simp only [isBlank, Bool.or_eq_false_iff, Bool.and_eq_false_iff, decide_eq_false_iff_not]
    omega
  · have h₁ : 48 ≤ c.toNat := h.1
    have h₂ : c.toNat ≤ 57 := h.2
    simp only [isBlank, Bool.or_eq_false_iff, Bool.and_eq_false_iff, decide_eq_false_iff_not]
    omega
  all_goals decide

instance (c : Char) : Decidable (ValueChar c) :=
  inferInstanceAs (Decidable (_ ∨ _))

instance (c : Char) : Decidable (KeyChar c) := inferInstanceAs (Decidable (_ ∨ _))

-- the characters of a text are gone through, and not all that there are
instance (k : String) : Decidable (KeyText k) :=
  haveI : Decidable (∀ c ∈ k.toList, KeyChar c) := List.decidableBAll _ _
  inferInstanceAs (Decidable (_ ∧ _ ∧ _))

instance (v : String) : Decidable (ValueText v) :=
  haveI : Decidable (∀ c ∈ v.toList, ValueChar c) := List.decidableBAll _ _
  inferInstanceAs (Decidable (_ ∧ _))

theorem KeyText.solid {k : String} (h : KeyText k) : Solid k.toList :=
  fun c hc => (h.2.2 c hc).isBlank_eq_false

theorem KeyText.exists_mem {k : String} (h : KeyText k) : ∃ c, c ∈ k.toList := by
  refine List.exists_mem_of_length_pos ?_
  rw [String.length_toList]
  exact h.1

theorem ValueText.keyChar {v : String} (h : ValueText v) : ∀ c ∈ v.toList, KeyChar c :=
  fun c hc => .inl (h.2 c hc)

theorem ValueText.solid {v : String} (h : ValueText v) : Solid v.toList :=
  fun c hc => (h.keyChar c hc).isBlank_eq_false

theorem Sign.solid {o : Operator} {sign : List Char} (h : Sign o sign) : Solid sign := by
  intro c hc
  cases h <;> simp only [List.mem_cons, List.not_mem_nil, or_false, or_self] at hc
  · rw [hc]; rfl
  · rw [hc]; rfl
  · obtain rfl | rfl := hc <;> rfl

theorem Word.keyChar {o : Operator} {word : List Char} (h : Word o word) : ∀ c ∈ word, KeyChar c := by
  intro c hc
  cases h <;> simp only [List.mem_cons, List.not_mem_nil, or_false] at hc
  · obtain rfl | rfl := hc <;> decide
  · obtain rfl | rfl | rfl | rfl | rfl := hc <;> decide

/-- A character that is no sign of the grammar. -/
def Plain (c : Char) : Prop := isBlank c = true ∨ KeyChar c

instance (c : Char) : Decidable (Plain c) := inferInstanceAs (Decidable (_ ∨ _))

theorem Plain.ne {a c : Char} (hc : Plain c) (ha : ¬Plain a) : c ≠ a := by
  rintro rfl
  exact ha hc

theorem plain_of_spaced {ts : List (List Char)} {s : List Char} (hs : Spaced ts s)
    (hts : ∀ t ∈ ts, ∀ c ∈ t, KeyChar c) : ∀ c ∈ s, Plain c :=
  fun c hc => (hs.blank_or_mem hc).imp_right fun ⟨t, ht, hct⟩ => hts t ht c hct

theorem KeyText.plain {k : String} {s : List Char} (hk : KeyText k) (hs : Spaced [k.toList] s) :
    ∀ c ∈ s, Plain c :=
  plain_of_spaced hs fun t ht => by
    rw [List.mem_singleton.1 ht]
    exact hk.2.2

theorem ValueText.plain {v : String} {s : List Char} (hv : ValueText v) (hs : Spaced [v.toList] s) :
    ∀ c ∈ s, Plain c :=
  plain_of_spaced hs fun t ht => by
    rw [List.mem_singleton.1 ht]
    exact hv.keyChar

theorem not_mem_of_plain {a : Char} {s : List Char} (hs : ∀ c ∈ s, Plain c) (ha : ¬Plain a) : a ∉ s :=
  fun h => ha (hs a h)

variable {r : Requirement} {rs : List Requirement} {s t b e word : List Char} {vs : List String}

theorem spaced_setTokens_iff (hvs : vs ≠ []) :
    Spaced (setTokens vs) t ↔
      ∃ b parts e, t = b ++ (['('] ++ [','].intercalate parts ++ [')']) ++ e ∧ Blank b ∧ Blank e ∧
        List.Forall₂ (fun v part => Spaced [v.toList] part) vs parts := by
  have hmembers : ∀ z, Spaced ((vs.map String.toList).intersperse [',']) z ↔
      ∃ parts, List.Forall₂ (fun v part => Spaced [v.toList] part) vs parts ∧
        z = [','].intercalate parts := by
    intro z
    rw [Spaced.intersperse_iff (by rwa [Ne, List.map_eq_nil_iff])]
    simp only [List.forall₂_map_left_iff]
  rw [setTokens, Spaced.cons_iff]
  constructor
  · rintro ⟨b, y, rfl, hb, hy⟩
    obtain ⟨z, e, rfl, hz, he⟩ := Spaced.middle_iff.1 hy
    obtain ⟨parts, hparts, rfl⟩ := (hmembers z).1 hz
    refine ⟨b, parts, e, ?_, hb, Spaced.nil_iff.1 he, hparts⟩
    simp only [List.append_assoc]
  · rintro ⟨b, parts, e, rfl, hb, he, hparts⟩
    refine ⟨b, [','].intercalate parts ++ [')'] ++ e, ?_, hb, Spaced.middle_iff.2 ⟨_, e, rfl, ?_, .blank he⟩⟩
    · simp only [List.append_assoc]
    · exact (hmembers _).2 ⟨parts, hparts, rfl⟩

theorem plain_of_values {parts : List (List Char)} (hvs : ∀ v ∈ vs, ValueText v)
    (hparts : List.Forall₂ (fun v part => Spaced [v.toList] part) vs parts) :
    ∀ part ∈ parts, ∀ c ∈ part, Plain c := by
  intro part hpart
  obtain ⟨v, hv, hs⟩ := exists_of_mem_right hparts hpart
  exact (hvs v hv).plain hs

theorem Writes.pad (h : Writes r s) (hb : Blank b) (he : Blank e) : Writes r (b ++ s ++ e) := by
  cases h with
  | present hk hs => exact .present hk ((hs.pad_left hb).pad_right he)
  | absent hk hs => exact .absent hk ((hs.pad_left hb).pad_right he)
  | compare hk hv hsign hs => exact .compare hk hv hsign ((hs.pad_left hb).pad_right he)
  | set hk hvs hvalues hword hs hc ht =>
      rw [List.append_assoc, List.append_assoc, List.cons_append, ← List.append_assoc]
      exact .set hk hvs hvalues hword (hs.pad_left hb) hc (ht.pad_right he)

theorem Writes.of_trim (h : Writes r (Text.trim s)) : Writes r s := by
  obtain ⟨b, e, hb, he, hs⟩ := Text.exists_append_trim_append s
  rw [hs]
  exact h.pad hb he

theorem Writes.trim (h : Writes r s) : Writes r (Text.trim s) := by
  cases h with
  | present hk hs =>
      refine .present hk (hs.trim fun t ht => ?_)
      rw [List.mem_singleton.1 ht]
      exact hk.solid
  | absent hk hs =>
      refine .absent hk (hs.trim fun t ht => ?_)
      obtain rfl | ht := List.mem_cons.1 ht
      · exact fun c hc => by rw [List.mem_singleton.1 hc]; rfl
      · rw [List.mem_singleton.1 ht]
        exact hk.solid
  | compare hk hv hsign hs =>
      refine .compare hk hv hsign (hs.trim fun t ht => ?_)
      simp only [List.mem_cons, List.not_mem_nil, or_false] at ht
      obtain rfl | rfl | rfl := ht
      · exact hk.solid
      · exact hsign.solid
      · exact hv.solid
  | @set k vs o word s t c hk hvs hvalues hword hs hc ht =>
      obtain ⟨a, ha⟩ := hk.exists_mem
      have hstart : ¬Blank s := hs.not_blank List.mem_cons_self ha hk.solid
      have hs' : Spaced [k.toList] (Text.trimStart s) := hs.trimStart fun t ht => by
        rw [List.mem_singleton.1 ht]
        exact hk.solid
      have htokens : Spaced ((word :: ['('] :: (vs.map String.toList).intersperse [',']) ++ [')'] :: []) t := ht
      obtain ⟨x, e, rfl, hx, he⟩ := Spaced.middle_iff.1 htokens
      have hsolid : Solid [')'] := fun a ha => by rw [List.mem_singleton.1 ha]; rfl
      have hend : ¬Blank [')'] := fun h => absurd (h ')' (List.mem_singleton_self _)) (by decide)
      have htrim : Text.trim (s ++ c :: (x ++ [')'] ++ e)) = Text.trimStart s ++ c :: (x ++ [')'] ++ []) := by
        rw [Text.trim, Text.trimStart_append_of_not_blank hstart, List.append_nil, ← List.cons_append,
          ← List.append_assoc, Text.trimEnd_append_of_blank (Spaced.nil_iff.1 he), ← List.cons_append,
          ← List.append_assoc, Text.trimEnd_append_of_not_blank hend, Text.trimEnd_of_solid hsolid]
      rw [htrim]
      exact .set hk hvs hvalues hword hs' hc (Spaced.middle_iff.2 ⟨x, [], rfl, hx, .blank blank_nil⟩)

theorem Writes.not_blank (h : Writes r s) : ¬Blank s := by
  cases h with
  | present hk hs | compare hk _ _ hs =>
      obtain ⟨a, ha⟩ := hk.exists_mem
      exact hs.not_blank List.mem_cons_self ha hk.solid
  | absent hk hs =>
      obtain ⟨a, ha⟩ := hk.exists_mem
      exact hs.not_blank (List.mem_cons_of_mem _ List.mem_cons_self) ha hk.solid
  | set hk _ _ _ hs _ _ =>
      obtain ⟨a, ha⟩ := hk.exists_mem
      rw [blank_append_iff]
      exact fun h => hs.not_blank List.mem_cons_self ha hk.solid h.1

theorem wellFormed_ofList {k : String} {o : Operator} (ho : o = .isIn ∨ o = .notIn) (hk : KeyText k)
    (hvs : vs ≠ []) (hvalues : ∀ v ∈ vs, ValueText v) (hempty : "" ∈ vs → vs = [""]) :
    Requirement.WellFormed ⟨k, o, NameSet.ofList vs⟩ := by
  have hne : NameSet.ofList vs ≠ ∅ := by
    obtain ⟨v, hv⟩ := List.exists_mem_of_ne_nil vs hvs
    intro h
    have hcontains := NameSet.contains_ofList vs v
    rw [h, decide_eq_true hv] at hcontains
    cases hcontains
  have hmem : ∀ v ∈ (NameSet.ofList vs).toList, ValueText v := by
    intro v hv
    rw [NameSet.mem_toList, NameSet.contains_ofList, decide_eq_true_iff] at hv
    exact hvalues v hv
  have hsingle : (NameSet.ofList vs).contains "" = true → NameSet.ofList vs = NameSet.ofList [""] := by
    intro h
    rw [NameSet.contains_ofList, decide_eq_true_iff] at h
    rw [hempty h]
  obtain rfl | rfl := ho
  · exact ⟨hk, hne, hmem, hsingle⟩
  · exact ⟨hk, hne, hmem, hsingle⟩

theorem exists_writes_values {k : String} {o : Operator} {values : NameSet} {sign word : List Char}
    (hsign : Sign o sign) (hword : Word o word) (hk : KeyText k) (hne : values ≠ ∅)
    (hvalues : ∀ v ∈ values.toList, ValueText v)
    (hempty : values.contains "" = true → values = NameSet.ofList [""]) :
    ∃ s, Writes ⟨k, o, values⟩ s := by
  cases hcontains : values.contains "" with
  | true =>
      have hv : ValueText "" := hvalues "" (NameSet.mem_toList.2 hcontains)
      rw [hempty hcontains]
      exact ⟨_, .compare hk hv hsign (.flatten _)⟩
  | false =>
      have hvs : values.toList ≠ [] := by
        intro hnil
        refine hne (NameSet.ext_contains fun name => ?_)
        rw [NameSet.contains_empty, Bool.eq_false_iff, Ne, ← NameSet.mem_toList, hnil]
        exact List.not_mem_nil
      have hmembers : ∀ v ∈ values.toList, v ≠ "" ∧ ValueText v := by
        refine fun v hv => ⟨?_, hvalues v hv⟩
        rintro rfl
        rw [NameSet.mem_toList, hcontains] at hv
        cases hv
      rw [← NameSet.ofList_toList values]
      exact ⟨_, .set (c := ' ') hk hvs hmembers hword (.single _) rfl (.flatten _)⟩

theorem exists_writes_iff : (∃ s, Writes r s) ↔ r.WellFormed := by
  constructor
  · rintro ⟨s, h⟩
    cases h with
    | present hk | absent hk => exact ⟨hk, rfl⟩
    | compare hk hv hsign =>
        refine wellFormed_ofList (by cases hsign <;> simp) hk (List.cons_ne_nil _ _) ?_ ?_
        · intro v' hv'
          rwa [List.mem_singleton.1 hv']
        · intro hempty
          rw [List.mem_singleton.1 hempty]
    | set hk hvs hvalues hword =>
        refine wellFormed_ofList (by cases hword <;> simp) hk hvs (fun v hv => (hvalues v hv).2) ?_
        exact fun hempty => absurd rfl (hvalues "" hempty).1
  · obtain ⟨k, o, values⟩ := r
    rintro ⟨hk, hvalues⟩
    cases o with
    | present =>
        cases hvalues
        exact ⟨_, .present hk (.flatten _)⟩
    | absent =>
        cases hvalues
        exact ⟨_, .absent hk (.flatten _)⟩
    | isIn => exact exists_writes_values .single .isIn hk hvalues.1 hvalues.2.1 hvalues.2.2
    | notIn => exact exists_writes_values .unequal .notIn hk hvalues.1 hvalues.2.1 hvalues.2.2

theorem exists_written_iff : (∃ s, Written rs s) ↔ ∀ r ∈ rs, r.WellFormed := by
  have hparts : (∃ s, Written rs s) ↔ ∃ parts, List.Forall₂ Writes rs parts := by
    constructor
    · rintro ⟨_, parts, hparts, -⟩
      exact ⟨parts, hparts⟩
    · rintro ⟨parts, hparts⟩
      exact ⟨_, parts, hparts, rfl⟩
  rw [hparts]
  clear hparts
  induction rs with
  | nil => exact ⟨fun _ => nofun, fun _ => ⟨[], .nil⟩⟩
  | cons r rs ih =>
      refine Iff.trans ?_ ((and_congr exists_writes_iff ih).trans List.forall_mem_cons.symm)
      constructor
      · rintro ⟨_, h⟩
        obtain ⟨part, parts, hpart, hparts, -⟩ := List.forall₂_cons_left_iff.1 h
        exact ⟨⟨part, hpart⟩, parts, hparts⟩
      · rintro ⟨⟨part, hpart⟩, parts, hparts⟩
        exact ⟨part :: parts, .cons hpart hparts⟩

end Visibility.Label
