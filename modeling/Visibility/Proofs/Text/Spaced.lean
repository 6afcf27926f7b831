import Mathlib.Data.List.DropRight
import Mathlib.Data.List.Forall2
import Visibility.Text.Split

/-!
Texts of tokens with white space around them.

A text is described by its tokens alone, so a grammar needs to say nothing about white space; trimming changes
no text as far as its tokens go.
-/

namespace Visibility.Text

variable {b s s' t : List Char} {ts us : List (List Char)}

/-- Nothing but white space. -/
def Blank (s : List Char) : Prop := ∀ c ∈ s, isBlank c = true

instance (s : List Char) : Decidable (Blank s) := List.decidableBAll (fun c => isBlank c = true) s

theorem blank_nil : Blank [] := nofun

theorem blank_append_iff : Blank (s ++ t) ↔ Blank s ∧ Blank t := List.forall_mem_append

theorem blank_reverse_iff : Blank s.reverse ↔ Blank s := by
  simp only [Blank, List.mem_reverse]

/-- No character of a token is white space. -/
def Solid (t : List Char) : Prop := ∀ c ∈ t, isBlank c = false

theorem solid_reverse_iff : Solid t.reverse ↔ Solid t := by
  simp only [Solid, List.mem_reverse]

theorem trimStart_eq_nil_iff : trimStart s = [] ↔ Blank s := List.dropWhile_eq_nil_iff

theorem trimStart_append_of_blank (hb : Blank b) : trimStart (b ++ s) = trimStart s :=
  List.dropWhile_append_of_pos hb

theorem trimStart_append_of_not_blank (hs : ¬Blank s) : trimStart (s ++ t) = trimStart s ++ t := by
  rw [← trimStart_eq_nil_iff, trimStart] at hs
  rw [trimStart, List.dropWhile_append, if_neg (by rwa [List.isEmpty_iff])]
  rfl

theorem trimStart_of_solid (ht : Solid t) : trimStart t = t := by
  cases t with
  | nil => rfl
  | cons c t =>
      have hc := ht c List.mem_cons_self
      rw [trimStart, List.dropWhile_cons_of_neg (by rw [hc]; exact Bool.false_ne_true)]

theorem exists_append_trimStart (s : List Char) : ∃ b, Blank b ∧ s = b ++ trimStart s :=
  ⟨s.takeWhile isBlank, fun _ hc => List.mem_takeWhile_imp hc, List.takeWhile_append_dropWhile.symm⟩

theorem trimEnd_eq : trimEnd s = (trimStart s.reverse).reverse := rfl

theorem exists_trimEnd_append (s : List Char) : ∃ b, Blank b ∧ s = trimEnd s ++ b := by
  obtain ⟨b, hb, hs⟩ := exists_append_trimStart s.reverse
  refine ⟨b.reverse, blank_reverse_iff.2 hb, ?_⟩
  rw [trimEnd_eq, ← List.reverse_append, ← hs, List.reverse_reverse]

theorem trimEnd_append_of_blank (hb : Blank b) : trimEnd (s ++ b) = trimEnd s := by
  rw [trimEnd_eq, trimEnd_eq, List.reverse_append, trimStart_append_of_blank (blank_reverse_iff.2 hb)]

theorem trimEnd_append_of_not_blank (ht : ¬Blank t) : trimEnd (s ++ t) = s ++ trimEnd t := by
  rw [trimEnd_eq, trimEnd_eq, List.reverse_append,
    trimStart_append_of_not_blank (by rwa [blank_reverse_iff]), List.reverse_append, List.reverse_reverse]

theorem trimEnd_of_solid (ht : Solid t) : trimEnd t = t := by
  rw [trimEnd_eq, trimStart_of_solid (solid_reverse_iff.2 ht), List.reverse_reverse]

theorem exists_append_trim_append (s : List Char) :
    ∃ b e, Blank b ∧ Blank e ∧ s = b ++ trim s ++ e := by
  obtain ⟨b, hb, hstart⟩ := exists_append_trimStart s
  obtain ⟨e, he, hend⟩ := exists_trimEnd_append (trimStart s)
  refine ⟨b, e, hb, he, ?_⟩
  rw [trim, List.append_assoc, ← hend, ← hstart]

theorem trim_eq_nil_iff : trim s = [] ↔ Blank s := by
  constructor
  · intro h
    obtain ⟨b, e, hb, he, hs⟩ := exists_append_trim_append s
    rw [h, List.append_nil] at hs
    rw [hs]
    exact blank_append_iff.2 ⟨hb, he⟩
  · intro h
    rw [trim, trimStart_eq_nil_iff.2 h]
    rfl

theorem trimStart_trim (s : List Char) : trimStart (trim s) = trim s := by
  obtain ⟨e, -, he⟩ := exists_trimEnd_append (trimStart s)
  rw [trim]
  generalize trimEnd (trimStart s) = t at he
  cases t with
  | nil => rfl
  | cons c t =>
      have hhead : (trimStart s).head? = some c := by rw [he, List.cons_append, List.head?_cons]
      have hc : isBlank c = false := by
        have h := List.head?_dropWhile_not isBlank s
        rw [trimStart] at hhead
        rwa [hhead] at h
      rw [trimStart, List.dropWhile_cons_of_neg (by rw [hc]; exact Bool.false_ne_true)]

theorem trim_trim (s : List Char) : trim (trim s) = trim s := by
  have hend : trimEnd (trimEnd (trimStart s)) = trimEnd (trimStart s) :=
    List.rdropWhile_idempotent isBlank (trimStart s)
  rw [trim, trimStart_trim, trim, hend]

theorem trim_between {c d : Char} {b e m : List Char} (hb : Blank b) (he : Blank e)
    (hc : isBlank c = false) (hd : isBlank d = false) :
    trim (b ++ (c :: m ++ [d]) ++ e) = c :: m ++ [d] := by
  have hsolid : Solid [d] := fun a ha => by rwa [List.mem_singleton.1 ha]
  have hend : ¬Blank [d] := by
    intro h
    have hd' := h d (List.mem_singleton_self d)
    rw [hd] at hd'
    cases hd'
  rw [trim, List.append_assoc b, trimStart_append_of_blank hb, List.cons_append, List.cons_append, trimStart,
    List.dropWhile_cons_of_neg (by rw [hc]; exact Bool.false_ne_true), ← List.cons_append,
    trimEnd_append_of_blank he, ← List.cons_append, trimEnd_append_of_not_blank hend, trimEnd_of_solid hsolid]

/-- Tokens one after the other, with any white space before, between and after them. -/
inductive Spaced : List (List Char) → List Char → Prop
  | blank {b : List Char} : Blank b → Spaced [] b
  | token {b t s : List Char} {ts : List (List Char)} :
      Blank b → Spaced ts s → Spaced (t :: ts) (b ++ t ++ s)

namespace Spaced

theorem pad_left (hb : Blank b) (h : Spaced ts s) : Spaced ts (b ++ s) := by
  cases h with
  | blank hb' => exact .blank (blank_append_iff.2 ⟨hb, hb'⟩)
  | @token b' t s ts hb' hs =>
      rw [List.append_assoc b', ← List.append_assoc b, ← List.append_assoc]
      exact .token (blank_append_iff.2 ⟨hb, hb'⟩) hs

theorem append (hs : Spaced ts s) (ht : Spaced us t) : Spaced (ts ++ us) (s ++ t) := by
  induction hs with
  | blank hb => exact ht.pad_left hb
  | token hb _ ih =>
      rw [List.append_assoc]
      exact .token hb ih

theorem pad_right (h : Spaced ts s) (hb : Blank b) : Spaced ts (s ++ b) := by
  have hpadded := h.append (.blank hb)
  rwa [List.append_nil] at hpadded

theorem single (t : List Char) : Spaced [t] t := by
  have h := Spaced.token (t := t) blank_nil (.blank blank_nil)
  rwa [List.nil_append, List.append_nil] at h

theorem flatten (ts : List (List Char)) : Spaced ts ts.flatten := by
  induction ts with
  | nil => exact .blank blank_nil
  | cons t ts ih => exact .token (b := []) blank_nil ih

theorem exists_append (h : Spaced (ts ++ us) s) :
    ∃ x y, s = x ++ y ∧ Spaced ts x ∧ Spaced us y := by
  induction ts generalizing s with
  | nil => exact ⟨[], s, rfl, .blank blank_nil, h⟩
  | cons t ts ih =>
      cases h with
      | @token b _ s _ hb hs =>
          obtain ⟨x, y, rfl, hx, hy⟩ := ih hs
          exact ⟨b ++ t ++ x, y, by rw [List.append_assoc _ x], .token hb hx, hy⟩

theorem middle_iff : Spaced (ts ++ t :: us) s ↔ ∃ x y, s = x ++ t ++ y ∧ Spaced ts x ∧ Spaced us y := by
  constructor
  · intro h
    obtain ⟨x, y, rfl, hx, hy⟩ := h.exists_append
    cases hy with
    | @token b _ y _ hb hy =>
        refine ⟨x ++ b, y, ?_, hx.pad_right hb, hy⟩
        simp only [List.append_assoc]
  · rintro ⟨x, y, rfl, hx, hy⟩
    have h := hx.append (Spaced.token (t := t) blank_nil hy)
    rwa [List.nil_append, ← List.append_assoc] at h

theorem cons_iff : Spaced (t :: ts) s ↔ ∃ b y, s = b ++ t ++ y ∧ Blank b ∧ Spaced ts y := by
  constructor
  · rintro (_ | ⟨hb, hs⟩)
    exact ⟨_, _, rfl, hb, hs⟩
  · rintro ⟨b, y, rfl, hb, hs⟩
    exact .token hb hs

theorem exists_append_of_trimStart (h : Spaced (t :: ts) s) (ht : Solid t) (hne : t ≠ [])
    (htrim : Text.trimStart s = s) : ∃ y, s = t ++ y ∧ Spaced ts y := by
  obtain ⟨b, y, rfl, hb, hy⟩ := cons_iff.1 h
  have hblank : ¬Blank t := by
    rw [← trimStart_eq_nil_iff, trimStart_of_solid ht]
    exact hne
  rw [List.append_assoc, trimStart_append_of_blank hb, trimStart_append_of_not_blank hblank,
    trimStart_of_solid ht] at htrim
  exact ⟨y, by rw [List.append_assoc, ← htrim], hy⟩

theorem nil_iff : Spaced [] s ↔ Blank s := by
  constructor
  · rintro ⟨hb⟩
    exact hb
  · exact .blank

theorem blank_or_mem (h : Spaced ts s) {c : Char} (hc : c ∈ s) : isBlank c = true ∨ ∃ t ∈ ts, c ∈ t := by
  induction h with
  | blank hb => exact .inl (hb c hc)
  | @token b t s ts hb _ ih =>
      rw [List.mem_append, List.mem_append] at hc
      obtain (hc | hc) | hc := hc
      · exact .inl (hb c hc)
      · exact .inr ⟨t, List.mem_cons_self, hc⟩
      · exact (ih hc).imp_right fun ⟨t', ht', hc'⟩ => ⟨t', List.mem_cons_of_mem _ ht', hc'⟩

theorem mem_of_mem (h : Spaced ts s) {c : Char} (ht : t ∈ ts) (hc : c ∈ t) : c ∈ s := by
  induction h with
  | blank => cases ht
  | token _ _ ih =>
      rw [List.mem_append, List.mem_append]
      obtain rfl | ht := List.mem_cons.1 ht
      · exact .inl (.inr hc)
      · exact .inr (ih ht)

theorem not_blank (h : Spaced ts s) {c : Char} (ht : t ∈ ts) (hc : c ∈ t) (hsolid : Solid t) : ¬Blank s := by
  intro hblank
  have hc' := hblank c (h.mem_of_mem ht hc)
  rw [hsolid c hc] at hc'
  cases hc'

theorem reverse (h : Spaced ts s) : Spaced (ts.map List.reverse).reverse s.reverse := by
  induction h with
  | blank hb => exact .blank (blank_reverse_iff.2 hb)
  | @token b t s ts hb _ ih =>
      rw [List.map_cons, List.reverse_cons, List.reverse_append, List.reverse_append]
      exact middle_iff.2 ⟨s.reverse, b.reverse, by rw [List.append_assoc], ih,
        .blank (blank_reverse_iff.2 hb)⟩

theorem trimStart (h : Spaced ts s) (hts : ∀ t ∈ ts, Solid t) : Spaced ts (trimStart s) := by
  induction h with
  | blank hb =>
      rw [trimStart_eq_nil_iff.2 hb]
      exact .blank blank_nil
  | @token b t s ts hb hs ih =>
      rw [List.append_assoc, trimStart_append_of_blank hb]
      have hrest := ih fun t' ht' => hts t' (List.mem_cons_of_mem _ ht')
      have hsolid := hts t List.mem_cons_self
      by_cases ht : Blank t
      · have hnil : t = [] := by
          rw [← trimStart_of_solid hsolid]
          exact trimStart_eq_nil_iff.2 ht
        subst hnil
        exact .token (b := []) blank_nil hrest
      · rw [trimStart_append_of_not_blank ht, trimStart_of_solid hsolid]
        exact .token (b := []) blank_nil hs

theorem trimEnd (h : Spaced ts s) (hts : ∀ t ∈ ts, Solid t) : Spaced ts (trimEnd s) := by
  have hreverse := h.reverse.trimStart fun t ht => by
    obtain ⟨t', ht', rfl⟩ := List.mem_map.1 (List.mem_reverse.1 ht)
    exact solid_reverse_iff.2 (hts t' ht')
  have hback := hreverse.reverse
  have hid : List.reverse ∘ List.reverse = (id : List Char → List Char) := funext List.reverse_reverse
  rwa [← List.map_reverse, List.reverse_reverse, List.map_map, hid, List.map_id] at hback

theorem trim (h : Spaced ts s) (hts : ∀ t ∈ ts, Solid t) : Spaced ts (trim s) :=
  (h.trimStart hts).trimEnd hts

theorem of_trim (h : Spaced ts (Text.trim s)) : Spaced ts s := by
  obtain ⟨b, e, hb, he, hs⟩ := exists_append_trim_append s
  rw [hs]
  exact (h.pad_left hb).pad_right he

theorem single_iff (ht : Solid t) : Spaced [t] s ↔ Text.trim s = t := by
  constructor
  · intro h
    obtain ⟨b, y, rfl, hb, hy⟩ := cons_iff.1 h
    rw [nil_iff] at hy
    rw [Text.trim, List.append_assoc, trimStart_append_of_blank hb]
    by_cases hblank : Blank t
    · have hnil : t = [] := by
        rw [← trimStart_of_solid ht]
        exact trimStart_eq_nil_iff.2 hblank
      rw [hnil, List.nil_append, trimStart_eq_nil_iff.2 hy]
      rfl
    · rw [trimStart_append_of_not_blank hblank, trimStart_of_solid ht, trimEnd_append_of_blank hy,
        trimEnd_of_solid ht]
  · rintro rfl
    exact (Spaced.single _).of_trim

/-- Tokens with a separator between each two stand in texts of one token each, which the separator joins. -/
theorem intersperse_iff {sep : List Char} (hts : ts ≠ []) :
    Spaced (ts.intersperse sep) s ↔
      ∃ parts, List.Forall₂ (fun t part => Spaced [t] part) ts parts ∧ s = sep.intercalate parts := by
  induction ts generalizing s with
  | nil => exact absurd rfl hts
  | cons t ts ih =>
      cases ts with
      | nil =>
          rw [List.intersperse_singleton]
          constructor
          · intro h
            exact ⟨[s], .cons h .nil, by rw [List.intercalate_singleton]⟩
          · rintro ⟨_, hparts, rfl⟩
            obtain ⟨part, _, hpart, hrest, rfl⟩ := List.forall₂_cons_left_iff.1 hparts
            rw [List.forall₂_nil_left_iff.1 hrest, List.intercalate_singleton]
            exact hpart
      | cons t' ts =>
          have htokens : (t :: t' :: ts).intersperse sep = [t] ++ sep :: (t' :: ts).intersperse sep :=
            List.intersperse_cons_cons
          rw [htokens, middle_iff]
          constructor
          · rintro ⟨x, y, rfl, hx, hy⟩
            obtain ⟨parts, hparts, rfl⟩ := (ih (List.cons_ne_nil _ _)).1 hy
            cases hparts with
            | cons hpart hparts =>
                exact ⟨_, .cons hx (.cons hpart hparts), by rw [List.intercalate_cons_cons]⟩
          · rintro ⟨_, hparts, rfl⟩
            obtain ⟨part, rest, hpart, hrest, rfl⟩ := List.forall₂_cons_left_iff.1 hparts
            refine ⟨_, _, ?_, hpart, (ih (List.cons_ne_nil _ _)).2 ⟨_, hrest, rfl⟩⟩
            cases hrest
            rw [List.intercalate_cons_cons]

end Spaced

theorem mem_intercalate {sep : List Char} {parts : List (List Char)} {c : Char}
    (hc : c ∈ sep.intercalate parts) : c ∈ sep ∨ ∃ part ∈ parts, c ∈ part := by
  induction parts with
  | nil => cases hc
  | cons part parts ih =>
      cases parts with
      | nil =>
          rw [List.intercalate_singleton] at hc
          exact .inr ⟨part, List.mem_cons_self, hc⟩
      | cons q parts =>
          rw [List.intercalate_cons_cons, List.mem_append, List.mem_append] at hc
          obtain (hc | hc) | hc := hc
          · exact .inr ⟨part, List.mem_cons_self, hc⟩
          · exact .inl hc
          · exact (ih hc).imp_right fun ⟨p, hp, hc⟩ => ⟨p, List.mem_cons_of_mem _ hp, hc⟩

theorem intercalate_consHead (sep : List Char) (c : Char) (q : List Char) (parts : List (List Char)) :
    sep.intercalate (consHead c (q :: parts)) = c :: sep.intercalate (q :: parts) := by
  cases parts with
  | nil => rw [consHead, List.intercalate_singleton, List.intercalate_singleton]
  | cons q' parts =>
      rw [consHead, List.intercalate_cons_cons, List.intercalate_cons_cons]
      rfl

theorem foldr_consHead (p q : List Char) (parts : List (List Char)) :
    p.foldr consHead (q :: parts) = (p ++ q) :: parts := by
  induction p with
  | nil => rfl
  | cons c p ih =>
      rw [List.foldr_cons, ih]
      rfl

theorem splitAt_append {sep : Char} {p : List Char} (hp : sep ∉ p) (s : List Char) :
    splitAt sep (p ++ s) = p.foldr consHead (splitAt sep s) := by
  induction p with
  | nil => rfl
  | cons c p ih =>
      rw [List.mem_cons, not_or] at hp
      rw [List.cons_append, splitAt, if_neg (Ne.symm hp.1), ih hp.2, List.foldr_cons]

theorem splitAt_intercalate {sep : Char} {parts : List (List Char)} (hne : parts ≠ [])
    (hparts : ∀ p ∈ parts, sep ∉ p) : splitAt sep ([sep].intercalate parts) = parts := by
  induction parts with
  | nil => exact absurd rfl hne
  | cons p parts ih =>
      have hp := hparts p List.mem_cons_self
      cases parts with
      | nil =>
          have h := splitAt_append hp []
          rw [List.append_nil, splitAt, foldr_consHead, List.append_nil] at h
          rwa [List.intercalate_singleton]
      | cons q parts =>
          rw [List.intercalate_cons_cons, List.append_assoc, splitAt_append hp, List.singleton_append,
            splitAt, if_pos rfl, foldr_consHead, List.append_nil,
            ih (List.cons_ne_nil _ _) fun p' hp' => hparts p' (List.mem_cons_of_mem _ hp')]

end Visibility.Text
