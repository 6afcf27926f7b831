import Visibility.Label.Parser
import Visibility.Proofs.Label.Grammar
import Visibility.Proofs.Traversal

namespace Visibility.Label

open Text (Solid Spaced isBlank trim consHead)

variable {s t x y z p : List Char} {k v : String}

theorem isValueChar_iff {c : Char} : isValueChar c = true ↔ ValueChar c := by
  have halphanum : c.isAlphanum =
      ((decide ('A' ≤ c ∧ c ≤ 'Z') || (decide ('a' ≤ c) && decide (c ≤ 'z'))) ||
        (decide ('0' ≤ c) && decide (c ≤ '9'))) := rfl
  simp only [isValueChar, ValueChar, halphanum, Bool.or_eq_true, Bool.and_eq_true, decide_eq_true_eq, or_assoc]

theorem isKey_iff : isKey k.toList = true ↔ KeyText k := by
  rw [KeyText, ← String.length_toList, isKey, Bool.and_eq_true, Bool.and_eq_true, decide_eq_true_iff,
    List.all_eq_true, Bool.not_eq_true', List.isEmpty_eq_false_iff, ← List.length_pos_iff, and_assoc]
  simp only [isKeyChar, Bool.or_eq_true, isValueChar_iff, decide_eq_true_iff]
  rfl

theorem isValue_iff : isValue v.toList = true ↔ ValueText v := by
  rw [ValueText, ← String.length_toList, isValue, Bool.and_eq_true, decide_eq_true_iff, List.all_eq_true]
  simp only [isValueChar_iff]

theorem ite_eq_ok_iff {valid : List Char → Bool} {e : ParseError} :
    (if valid x then .ok (String.ofList x) else .error e : Except ParseError String) = .ok k ↔
      k.toList = x ∧ valid k.toList = true := by
  constructor
  · intro h
    split at h
    · rename_i hx
      cases h
      rw [String.toList_ofList]
      exact ⟨rfl, hx⟩
    · cases h
  · rintro ⟨rfl, hk⟩
    rw [if_pos hk, String.ofList_toList]

theorem readKey_eq_ok_iff : readKey x = .ok k ↔ k.toList = x ∧ KeyText k := by
  rw [readKey, ite_eq_ok_iff, isKey_iff]

theorem readValue_eq_ok_iff : readValue x = .ok v ↔ v.toList = x ∧ ValueText v := by
  rw [readValue, ite_eq_ok_iff, isValue_iff]

theorem toList_eq_trim_iff {valid : Prop} (h : valid → Solid k.toList) :
    k.toList = trim x ∧ valid ↔ valid ∧ Spaced [k.toList] x := by
  rw [and_comm]
  refine and_congr_right fun hk => ?_
  rw [Spaced.single_iff (h hk), eq_comm]

theorem readKey_trim_eq_ok_iff : readKey (trim x) = .ok k ↔ KeyText k ∧ Spaced [k.toList] x := by
  rw [readKey_eq_ok_iff, toList_eq_trim_iff KeyText.solid]

theorem readValue_trim_eq_ok_iff : readValue (trim x) = .ok v ↔ ValueText v ∧ Spaced [v.toList] x := by
  rw [readValue_eq_ok_iff, toList_eq_trim_iff ValueText.solid]

theorem readMember_eq_ok_iff :
    readMember x = .ok v ↔ (v ≠ "" ∧ ValueText v) ∧ Spaced [v.toList] x := by
  rw [readMember]
  constructor
  · intro h
    split at h
    · cases h
    · rename_i hne
      rw [List.isEmpty_iff] at hne
      have hv := readValue_trim_eq_ok_iff.1 h
      refine ⟨⟨?_, hv.1⟩, hv.2⟩
      rintro rfl
      exact hne ((Spaced.single_iff hv.1.solid).1 hv.2)
  · rintro ⟨⟨hne, hv⟩, hx⟩
    have htrim : trim x = v.toList := (Spaced.single_iff hv.solid).1 hx
    rw [if_neg, readValue_trim_eq_ok_iff]
    · exact ⟨hv, hx⟩
    · rwa [List.isEmpty_iff, htrim, String.toList_eq_nil_iff]

theorem eq_append_of_cut? (h : cut? p s = some (x, y)) : s = x ++ p ++ y := by
  induction s generalizing x y with
  | nil =>
      rw [cut?] at h
      split at h
      · rename_i hp
        cases h
        rw [List.isEmpty_iff.1 hp]
        rfl
      · cases h
  | cons c rest ih =>
      rw [cut?] at h
      split at h
      · rename_i hp
        cases h
        rw [List.nil_append, List.prefix_iff_eq_append.1 (List.isPrefixOf_iff_prefix.1 hp)]
      · obtain ⟨q, hq, hxy⟩ := Option.map_eq_some_iff.1 h
        cases hxy
        rw [List.cons_append, List.cons_append, ← ih hq]

theorem cut?_append {a : Char} (ha : a ∉ x) (y : List Char) :
    cut? (a :: p) (x ++ a :: p ++ y) = some (x, y) := by
  induction x with
  | nil =>
      have hprefix : (a :: p).isPrefixOf (a :: p ++ y) = true :=
        List.isPrefixOf_iff_prefix.2 (List.prefix_append _ _)
      rw [List.nil_append, List.cons_append, cut?, ← List.cons_append, if_pos hprefix, List.drop_left]
  | cons c x ih =>
      rw [List.mem_cons, not_or] at ha
      have hprefix : ¬(a :: p).isPrefixOf (c :: (x ++ a :: p ++ y)) = true := by
        rw [List.isPrefixOf_iff_prefix, List.cons_prefix_cons]
        exact fun h => ha.1 h.1
      rw [List.cons_append, List.cons_append, cut?, if_neg hprefix, ih ha.2, Option.map_some]

theorem cut?_eq_none {a : Char} (ha : a ∉ s) : cut? (a :: p) s = none := by
  induction s with
  | nil => rfl
  | cons c s ih =>
      rw [List.mem_cons, not_or] at ha
      have hprefix : ¬(a :: p).isPrefixOf (c :: s) = true := by
        rw [List.isPrefixOf_iff_prefix, List.cons_prefix_cons]
        exact fun h => ha.1 h.1
      rw [cut?, if_neg hprefix, ih ha.2, Option.map_none]

theorem eq_append_of_cutAtBlank? (h : cutAtBlank? s = some (x, y)) :
    ∃ c, isBlank c = true ∧ s = x ++ c :: y := by
  induction s generalizing x y with
  | nil => cases h
  | cons c rest ih =>
      rw [cutAtBlank?] at h
      split at h
      · rename_i hc
        cases h
        exact ⟨c, hc, rfl⟩
      · obtain ⟨q, hq, hxy⟩ := Option.map_eq_some_iff.1 h
        cases hxy
        obtain ⟨c', hc', hrest⟩ := ih hq
        exact ⟨c', hc', by rw [List.cons_append, ← hrest]⟩

theorem cutAtBlank?_append {c : Char} (hx : Solid x) (hc : isBlank c = true) (y : List Char) :
    cutAtBlank? (x ++ c :: y) = some (x, y) := by
  induction x with
  | nil => rw [List.nil_append, cutAtBlank?, if_pos hc]
  | cons a x ih =>
      have ha : isBlank a = false := hx a List.mem_cons_self
      rw [List.cons_append, cutAtBlank?, if_neg (by rw [ha]; exact Bool.false_ne_true),
        ih fun a' ha' => hx a' (List.mem_cons_of_mem _ ha'), Option.map_some]

theorem cutAtBlank?_of_solid (hs : Solid s) : cutAtBlank? s = none := by
  cases h : cutAtBlank? s with
  | none => rfl
  | some q =>
      obtain ⟨c, hc, hs'⟩ := eq_append_of_cutAtBlank? h
      have hsolid := hs c (by rw [hs']; simp)
      rw [hc] at hsolid
      cases hsolid

theorem after?_eq_some_iff : after? p s = some y ↔ s = p ++ y := by
  rw [after?]
  constructor
  · intro h
    split at h
    · rename_i hp
      cases h
      rw [List.prefix_iff_eq_append.1 (List.isPrefixOf_iff_prefix.1 hp)]
    · cases h
  · rintro rfl
    rw [if_pos (List.isPrefixOf_iff_prefix.2 (List.prefix_append _ _)), List.drop_left]

theorem after?_eq_none {a : Char} (ha : a ∉ s) : after? (a :: p) s = none := by
  rw [Option.eq_none_iff_forall_ne_some]
  intro y hy
  rw [after?_eq_some_iff] at hy
  exact ha (by rw [hy]; exact List.mem_cons_self)

theorem after?_append_eq_none {a : Char} (hx : x ≠ []) (ha : a ∉ x) (y : List Char) :
    after? (a :: p) (x ++ y) = none := by
  rw [Option.eq_none_iff_forall_ne_some]
  intro y' hy
  obtain ⟨c, x, rfl⟩ := List.exists_cons_of_ne_nil hx
  rw [after?_eq_some_iff, List.cons_append, List.cons_append] at hy
  exact ha (by rw [(List.cons.inj hy).1]; exact List.mem_cons_self)

theorem unwrap?_eq_some_iff : unwrap? s = some z ↔ s = '(' :: z ++ [')'] := by
  constructor
  · intro h
    unfold unwrap? at h
    split at h
    · rename_i rest
      split at h
      · rename_i hlast
        cases h
        obtain ⟨rest', rfl⟩ := List.getLast?_eq_some_iff.1 hlast
        rw [List.dropLast_concat, List.cons_append]
      · cases h
    · cases h
  · rintro rfl
    rw [List.cons_append, unwrap?, if_pos List.getLast?_concat, List.dropLast_concat]

theorem splitAtDepth_cons (d : Nat) (c : Char) (rest : List Char) :
    splitAtDepth d (c :: rest) =
      if c = '(' then (splitAtDepth (d + 1) rest).map (consHead c)
      else if c = ')' then
        match d with
        | 0 => .error .unbalanced
        | d + 1 => (splitAtDepth d rest).map (consHead c)
      else if c = ',' ∧ d = 0 then (splitAtDepth 0 rest).map ([] :: ·)
      else (splitAtDepth d rest).map (consHead c) := by
  cases d <;> rfl

/-- A text leads from one depth to another and has no comma outside parentheses. -/
def Leads (d d' : Nat) (t : List Char) : Prop :=
  ∀ rest, splitAtDepth d (t ++ rest) = (splitAtDepth d' rest).map (t.foldr consHead)

namespace Leads

theorem append {d d' d'' : Nat} (hs : Leads d d' s) (ht : Leads d' d'' t) : Leads d d'' (s ++ t) := by
  intro rest
  rw [List.append_assoc, hs, ht]
  cases splitAtDepth d'' rest with
  | error e => rfl
  | ok parts => exact congrArg Except.ok (List.foldr_append ..).symm

theorem opening (d : Nat) : Leads d (d + 1) ['('] := fun rest => splitAtDepth_cons d '(' rest

theorem closing (d : Nat) : Leads (d + 1) d [')'] := fun rest => splitAtDepth_cons (d + 1) ')' rest

theorem level {d : Nat} (ht : ∀ c ∈ t, c ≠ '(' ∧ c ≠ ')' ∧ (c = ',' → d ≠ 0)) : Leads d d t := by
  induction t with
  | nil =>
      intro rest
      cases h : splitAtDepth d rest <;> rw [List.nil_append, h] <;> rfl
  | cons c t ih =>
      obtain ⟨hopen, hclose, hcomma⟩ := ht c List.mem_cons_self
      have hsingle : Leads d d [c] := by
        intro rest
        rw [List.singleton_append, splitAtDepth_cons, if_neg hopen, if_neg hclose,
          if_neg fun h => hcomma h.1 h.2]
        rfl
      exact hsingle.append (ih fun c' hc' => ht c' (List.mem_cons_of_mem _ hc'))

end Leads

theorem splitAtDepth_intercalate {parts : List (List Char)} (hne : parts ≠ [])
    (hparts : ∀ part ∈ parts, Leads 0 0 part) : splitAtDepth 0 ([','].intercalate parts) = .ok parts := by
  induction parts with
  | nil => exact absurd rfl hne
  | cons part parts ih =>
      have hpart := hparts part List.mem_cons_self
      cases parts with
      | nil =>
          have hend : splitAtDepth 0 (part ++ []) = .ok [part ++ []] :=
            (hpart []).trans (congrArg Except.ok (Text.foldr_consHead part [] []))
          rw [List.append_nil] at hend
          rwa [List.intercalate_singleton]
      | cons q parts =>
          have hrest := ih (List.cons_ne_nil _ _) fun p' hp' => hparts p' (List.mem_cons_of_mem _ hp')
          rw [List.intercalate_cons_cons, List.append_assoc, hpart, List.singleton_append, splitAtDepth_cons,
            if_neg (by decide), if_neg (by decide), if_pos ⟨rfl, rfl⟩, hrest]
          refine congrArg Except.ok ((Text.foldr_consHead part [] _).trans ?_)
          rw [List.append_nil]

theorem exists_of_map_eq_ok {e : Except ParseError (List (List Char))} {f : List (List Char) → List (List Char)}
    {parts : List (List Char)} (h : e.map f = .ok parts) : ∃ ps, e = .ok ps ∧ parts = f ps := by
  cases e with
  | error e => cases h
  | ok ps => exact ⟨ps, rfl, (Except.ok.inj h).symm⟩

/-- The parts that a text divides into are the text again, with commas between them. -/
theorem intercalate_splitAtDepth {d : Nat} {parts : List (List Char)} (h : splitAtDepth d s = .ok parts) :
    parts ≠ [] ∧ [','].intercalate parts = s := by
  induction s generalizing d parts with
  | nil =>
      cases d with
      | zero =>
          cases h
          exact ⟨List.cons_ne_nil _ _, rfl⟩
      | succ d => cases h
  | cons c rest ih =>
      have hcons : ∀ {d'}, (splitAtDepth d' rest).map (consHead c) = .ok parts →
          parts ≠ [] ∧ [','].intercalate parts = c :: rest := by
        intro d' hmap
        obtain ⟨ps, hps, rfl⟩ := exists_of_map_eq_ok hmap
        obtain ⟨hne, hjoin⟩ := ih hps
        obtain ⟨q, ps, rfl⟩ := List.exists_cons_of_ne_nil hne
        rw [Text.intercalate_consHead, hjoin]
        exact ⟨List.cons_ne_nil _ _, rfl⟩
      rw [splitAtDepth_cons] at h
      split at h
      · exact hcons h
      · split at h
        · cases d with
          | zero => cases h
          | succ d => exact hcons h
        · split at h
          · rename_i hcomma
            obtain ⟨ps, hps, rfl⟩ := exists_of_map_eq_ok h
            obtain ⟨hne, hjoin⟩ := ih hps
            obtain ⟨q, ps, rfl⟩ := List.exists_cons_of_ne_nil hne
            refine ⟨List.cons_ne_nil _ _, ?_⟩
            rw [List.intercalate_cons_cons, hjoin, hcomma.1]
            rfl
          · exact hcons h

end Visibility.Label
