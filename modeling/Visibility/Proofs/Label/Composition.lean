import Mathlib.Data.List.Infix
import Visibility.Proofs.Label.Parser

/-!
Selectors that are put together with a comma.

Whether the parentheses of a text match is found out over the whole text before any requirement is read. That is
why only a text whose parentheses match can be read apart from what follows its comma, errors included.
-/

namespace Visibility.Label

open Text (Blank trim)

variable {a b s : List Char}

/-- A text closes what it opens and the `opened` parentheses that are open before it, and at no place more than
are open there. -/
structure Closes (opened : Nat) (s : List Char) : Prop where
  never_more : ∀ p, p <+: s → p.count ')' ≤ opened + p.count '('
  all : s.count ')' = opened + s.count '('

/-- Every parenthesis of the text is closed, and none is closed that was not opened. -/
def Balanced (s : List Char) : Prop := Closes 0 s

instance (d : Nat) (s : List Char) : Decidable (Closes d s) :=
  decidable_of_iff ((∀ p ∈ s.inits, p.count ')' ≤ d + p.count '(') ∧ s.count ')' = d + s.count '(')
    ⟨fun h => ⟨fun p hp => h.1 p ((List.mem_inits p s).2 hp), h.2⟩,
      fun h => ⟨fun p hp => h.never_more p ((List.mem_inits p s).1 hp), h.all⟩⟩

instance (s : List Char) : Decidable (Balanced s) := inferInstanceAs (Decidable (Closes 0 s))

theorem closes_nil_iff {d : Nat} : Closes d [] ↔ d = 0 := by
  constructor
  · intro h
    exact h.all.symm
  · rintro rfl
    exact ⟨fun p hp => by rw [List.prefix_nil.1 hp]; rfl, rfl⟩

theorem closes_cons_iff {d d' : Nat} {c : Char} (h : d + [c].count '(' = d' + [c].count ')') :
    Closes d (c :: s) ↔ Closes d' s := by
  have hcount : ∀ (x : Char) (p : List Char), (c :: p).count x = [c].count x + p.count x :=
    fun x p => by rw [← List.singleton_append, List.count_append]
  constructor
  · rintro ⟨hnever, hall⟩
    refine ⟨fun p hp => ?_, ?_⟩
    · have hmore := hnever (c :: p) (List.cons_prefix_cons.2 ⟨rfl, hp⟩)
      rw [hcount ')' p, hcount '(' p] at hmore
      omega
    · rw [hcount ')' s, hcount '(' s] at hall
      omega
  · rintro ⟨hnever, hall⟩
    refine ⟨fun p hp => ?_, ?_⟩
    · obtain rfl | ⟨q, rfl, hq⟩ := List.prefix_cons_iff.1 hp
      · exact Nat.zero_le _
      · have hmore := hnever q hq
        rw [hcount ')' q, hcount '(' q]
        omega
    · rw [hcount ')' s, hcount '(' s]
      omega

theorem not_closes_cons_closing : ¬Closes 0 (')' :: s) := by
  intro h
  have hmore := h.never_more [')'] (List.cons_prefix_cons.2 ⟨rfl, List.nil_prefix⟩)
  simp at hmore

theorem splitAtDepth_eq_error_iff {d : Nat} {e : ParseError} :
    splitAtDepth d s = .error e ↔ e = .unbalanced ∧ ¬Closes d s := by
  induction s generalizing d with
  | nil =>
      rw [closes_nil_iff]
      cases d with
      | zero => exact ⟨nofun, fun h => absurd rfl h.2⟩
      | succ d => simp [splitAtDepth, eq_comm]
  | cons c rest ih =>
      rw [splitAtDepth_cons]
      split
      · rename_i hopen
        have hstep : Closes d (c :: rest) ↔ Closes (d + 1) rest := closes_cons_iff (by rw [hopen]; rfl)
        rw [map_eq_error_iff, ih, hstep]
      · rename_i hopen
        split
        · rename_i hclose
          subst hclose
          cases d with
          | zero => simp [not_closes_cons_closing, eq_comm]
          | succ d =>
              have hstep : Closes (d + 1) (')' :: rest) ↔ Closes d rest := closes_cons_iff rfl
              rw [map_eq_error_iff, ih, hstep]
        · rename_i hclose
          have hlevel : d + [c].count '(' = d + [c].count ')' := by
            rw [List.count_singleton, List.count_singleton, if_neg (by simpa using hopen),
              if_neg (by simpa using hclose)]
          rw [closes_cons_iff hlevel]
          split
          · rename_i hcomma
            rw [map_eq_error_iff, ih, hcomma.2]
          · rw [map_eq_error_iff, ih]

theorem balanced_iff : Balanced s ↔ ∃ parts, splitRequirements s = .ok parts := by
  have herror : ∀ e, splitRequirements s = .error e ↔ e = .unbalanced ∧ ¬Balanced s :=
    fun _ => splitAtDepth_eq_error_iff
  cases hs : splitRequirements s with
  | error e => exact iff_of_false ((herror e).1 hs).2 nofun
  | ok parts =>
      refine iff_of_true ?_ ⟨parts, rfl⟩
      by_contra hunbalanced
      rw [(herror _).2 ⟨rfl, hunbalanced⟩] at hs
      cases hs

theorem splitRequirements_of_blank (h : Blank s) : splitRequirements s = .ok [s] := by
  have hsplit := splitAtDepth_intercalate (List.cons_ne_nil s []) fun part hpart => by
    rw [List.mem_singleton.1 hpart]
    exact Leads.plain fun c hc => .inl (.inl (h c hc))
  rwa [List.intercalate_singleton] at hsplit

theorem balanced_of_blank (h : Blank s) : Balanced s := balanced_iff.2 ⟨_, splitRequirements_of_blank h⟩

theorem consHead_append (c : Char) {ps : List (List Char)} (hps : ps ≠ []) (qs : List (List Char)) :
    Text.consHead c (ps ++ qs) = Text.consHead c ps ++ qs := by
  obtain ⟨p, ps, rfl⟩ := List.exists_cons_of_ne_nil hps
  rfl

/-- A comma after a text that closes all parentheses divides it from what follows. -/
theorem splitAtDepth_append_comma {d : Nat} {ps : List (List Char)} (h : splitAtDepth d s = .ok ps)
    (t : List Char) : splitAtDepth d (s ++ ',' :: t) = (splitAtDepth 0 t).map (ps ++ ·) := by
  induction s generalizing d ps with
  | nil =>
      cases d with
      | zero =>
          cases h
          rfl
      | succ d => cases h
  | cons c rest ih =>
      -- Whatever the depth after `c`, it goes in front of the first part on both sides.
      have hcons : ∀ {d'}, (splitAtDepth d' rest).map (Text.consHead c) = .ok ps →
          (splitAtDepth d' (rest ++ ',' :: t)).map (Text.consHead c) = (splitAtDepth 0 t).map (ps ++ ·) := by
        intro d' hmap
        obtain ⟨ps, hps, rfl⟩ := exists_of_map_eq_ok hmap
        rw [ih hps]
        cases splitAtDepth 0 t with
        | error e => rfl
        | ok qs => exact congrArg Except.ok (consHead_append c (intercalate_splitAtDepth hps).1 qs)
      rw [splitAtDepth_cons] at h
      rw [List.cons_append, splitAtDepth_cons]
      split at h
      · rename_i hopen
        rw [if_pos hopen]
        exact hcons h
      · rename_i hopen
        rw [if_neg hopen]
        split at h
        · rename_i hclose
          rw [if_pos hclose]
          cases d with
          | zero => cases h
          | succ d => exact hcons h
        · rename_i hclose
          rw [if_neg hclose]
          split at h
          · rename_i hcomma
            obtain ⟨ps, hps, rfl⟩ := exists_of_map_eq_ok h
            rw [if_pos hcomma, ih hps]
            cases splitAtDepth 0 t <;> rfl
          · rename_i hcomma
            rw [if_neg hcomma]
            exact hcons h

theorem ite_ne_unbalanced {valid : Bool} {x : String} {e : ParseError} (he : e ≠ .unbalanced) :
    (if valid then .ok x else .error e : Except ParseError String) ≠ .error .unbalanced := by
  cases valid with
  | true => exact nofun
  | false => exact fun h => he (Except.error.inj h)

theorem readKey_ne_unbalanced (s : List Char) : readKey s ≠ .error .unbalanced := ite_ne_unbalanced nofun

theorem readValue_ne_unbalanced (s : List Char) : readValue s ≠ .error .unbalanced := ite_ne_unbalanced nofun

theorem readMember_ne_unbalanced (s : List Char) : readMember s ≠ .error .unbalanced := by
  rw [readMember]
  split
  · intro h
    cases h
  · exact readValue_ne_unbalanced _

theorem readLone_ne_unbalanced (o : Operator) (key : List Char) : readLone o key ≠ .error .unbalanced :=
  bind_ne_error (readKey_ne_unbalanced _) fun _ => nofun

theorem readPair_ne_unbalanced (o : Operator) (key value : List Char) :
    readPair o key value ≠ .error .unbalanced :=
  bind_ne_error (readKey_ne_unbalanced _) fun _ =>
    bind_ne_error (readValue_ne_unbalanced _) fun _ => nofun

theorem readSet_ne_unbalanced (requirement : List Char) (o : Operator) (key : String) (s : List Char) :
    readSet requirement o key s ≠ .error .unbalanced := by
  rw [readSet]
  split
  · intro h
    cases h
  · refine bind_ne_error (mapM_ne_error readMember_ne_unbalanced _) fun values h => ?_
    cases h

theorem readSetAfter_ne_unbalanced (requirement key rest : List Char) :
    readSetAfter requirement key rest ≠ .error .unbalanced := by
  refine bind_ne_error (readKey_ne_unbalanced _) fun _ => ?_
  split
  · exact readSet_ne_unbalanced _ _ _ _
  · split
    · exact readSet_ne_unbalanced _ _ _ _
    · intro h
      cases h

theorem readRequirement_ne_unbalanced (text : List Char) : readRequirement text ≠ .error .unbalanced := by
  rw [readRequirement_eq, readTrimmed]
  split
  · intro h
    cases h
  · repeat' split
    · exact readLone_ne_unbalanced _ _
    · exact readPair_ne_unbalanced _ _ _
    · exact readPair_ne_unbalanced _ _ _
    · exact readSetAfter_ne_unbalanced _ _ _
    · exact readLone_ne_unbalanced _ _

/-- Reads a text that is divided already, apart from any other. -/
def readRequirements (s : List Char) : Except ParseError (List Requirement) :=
  splitRequirements s >>= (·.mapM readRequirement)

theorem readRequirements_append_comma (ha : Balanced a) (hb : Balanced b) :
    readRequirements (a ++ ',' :: b) = do
      let rs ← readRequirements a
      let rs' ← readRequirements b
      return rs ++ rs' := by
  obtain ⟨ps, hps⟩ := balanced_iff.1 ha
  obtain ⟨qs, hqs⟩ := balanced_iff.1 hb
  have hsplit : splitRequirements (a ++ ',' :: b) = .ok (ps ++ qs) := by
    rw [splitRequirements, splitAtDepth_append_comma hps, ← splitRequirements, hqs]
    rfl
  rw [readRequirements, readRequirements, readRequirements, hsplit, hps, hqs]
  exact List.mapM_append

theorem readRequirements_of_blank (h : Blank s) : readRequirements s = .error .emptyRequirement := by
  have hread : readRequirement s = .error .emptyRequirement := by
    rw [readRequirement_eq, if_pos (by rwa [List.isEmpty_iff, Text.trim_eq_nil_iff])]
  rw [readRequirements, splitRequirements_of_blank h]
  change [s].mapM readRequirement = _
  rw [List.mapM_cons, hread]
  rfl

theorem readRequirements_eq_unbalanced_iff : readRequirements s = .error .unbalanced ↔ ¬Balanced s := by
  rw [readRequirements]
  cases hs : splitRequirements s with
  | error e =>
      obtain ⟨rfl, hunbalanced⟩ := splitAtDepth_eq_error_iff.1 hs
      exact iff_of_true rfl hunbalanced
  | ok parts =>
      exact iff_of_false (mapM_ne_error readRequirement_ne_unbalanced _)
        (not_not_intro (balanced_iff.2 ⟨parts, hs⟩))

namespace Selector

/-- The requirements of a selector. -/
def required (s : Selector) : List Requirement := s.requirements.getD []

theorem selects_ofRequirements_append (rs rs' : List Requirement) (labels : Table String) :
    (ofRequirements (rs ++ rs')).selects labels =
      ((ofRequirements rs).selects labels && (ofRequirements rs').selects labels) := by
  rw [selects_ofRequirements, selects_ofRequirements, selects_ofRequirements, List.all_append]

theorem parse_of_blank {text : String} (h : Blank text.toList) : parse text = .ok .everything := by
  rw [parse, if_pos (by rwa [List.isEmpty_iff, Text.trim_eq_nil_iff])]

theorem parse_of_not_blank {text : String} (h : ¬Blank text.toList) :
    parse text = (readRequirements text.toList).map ofRequirements := by
  rw [parse, if_neg (by rwa [List.isEmpty_iff, Text.trim_eq_nil_iff]), readRequirements]
  cases splitRequirements text.toList with
  | error e => rfl
  | ok parts => cases h : parts.mapM readRequirement <;> simp [bind, Except.bind, Except.map, pure, Except.pure, h]

theorem parse_append_comma {a b : String} (ha : Balanced a.toList) (hb : Balanced b.toList) :
    parse (a ++ "," ++ b) = (do
      let rs ← readRequirements a.toList
      let rs' ← readRequirements b.toList
      return ofRequirements (rs ++ rs')) := by
  have htext : (a ++ "," ++ b).toList = a.toList ++ ',' :: b.toList := by simp
  have hblank : ¬Blank (a ++ "," ++ b).toList := by
    intro h
    rw [htext] at h
    exact absurd (h ',' (List.mem_append_right _ List.mem_cons_self)) (by decide)
  rw [parse_of_not_blank hblank, htext, readRequirements_append_comma ha hb]
  cases readRequirements a.toList with
  | error e => rfl
  | ok rs => cases readRequirements b.toList <;> rfl

/-- Of two texts whose parentheses match, a comma between them makes the list of what they ask for: the error of
the first one that has one, or the requirements of both, in order, so that it selects what both select. A side
that asks for nothing is an error there. Only a text whose parentheses do not match is refused for that, and it
always is. -/
theorem parse_comma_exact :
    (∀ a b : String, Balanced a.toList → Balanced b.toList →
      (¬Blank a.toList → ¬Blank b.toList →
        parse (a ++ "," ++ b) = (do
          let x ← parse a
          let y ← parse b
          return ofRequirements (x.required ++ y.required)) ∧
        ∀ x y, parse a = .ok x → parse b = .ok y →
          ∃ z, parse (a ++ "," ++ b) = .ok z ∧
            ∀ labels, z.selects labels = (x.selects labels && y.selects labels)) ∧
      (Blank a.toList → parse (a ++ "," ++ b) = .error .emptyRequirement) ∧
      (Blank b.toList → parse (a ++ "," ++ b) = parse a >>= fun _ => .error .emptyRequirement)) ∧
    ∀ text : String, parse text = .error .unbalanced ↔ ¬Balanced text.toList := by
  refine ⟨fun a b ha hb => ⟨fun hna hnb => ?_, fun hblank => ?_, fun hblank => ?_⟩, fun text => ?_⟩
  · rw [parse_append_comma ha hb, parse_of_not_blank hna, parse_of_not_blank hnb]
    cases readRequirements a.toList with
    | error e => exact ⟨rfl, nofun⟩
    | ok rs =>
        cases readRequirements b.toList with
        | error e => exact ⟨rfl, nofun⟩
        | ok rs' =>
            refine ⟨rfl, ?_⟩
            rintro x y ⟨⟩ ⟨⟩
            exact ⟨_, rfl, selects_ofRequirements_append rs rs'⟩
  · rw [parse_append_comma ha hb, readRequirements_of_blank hblank]
    rfl
  · rw [parse_append_comma ha hb, readRequirements_of_blank hblank]
    by_cases hna : Blank a.toList
    · rw [readRequirements_of_blank hna, parse_of_blank hna]
      rfl
    · rw [parse_of_not_blank hna]
      cases readRequirements a.toList <;> rfl
  · by_cases hblank : Blank text.toList
    · rw [parse_of_blank hblank]
      exact iff_of_false nofun (not_not_intro (balanced_of_blank hblank))
    · rw [parse_of_not_blank hblank, map_eq_error_iff, readRequirements_eq_unbalanced_iff]

theorem parse_comma_exact_sample :
    parse ("x in (a,b)" ++ "," ++ "y=(,),!") = .error (.invalidValue "(,)") ∧
    (∃ z, parse ("x in (a,b)" ++ "," ++ "!y") = .ok z ∧ ∀ labels, z.selects labels =
      ((ofRequirements [⟨"x", .isIn, NameSet.ofList ["a", "b"]⟩]).selects labels &&
        (ofRequirements [⟨"y", .absent, ∅⟩]).selects labels)) ∧
    parse ("\t" ++ "," ++ "y=(,),!") = .error .emptyRequirement ∧
    parse ("y=(,),!" ++ "," ++ "\t") = .error (.invalidValue "(,)") ∧
    parse "y=(,))(" = .error .unbalanced := by
  have h := parse_comma_exact
  have hset : Balanced "x in (a,b)".toList ∧ ¬Blank "x in (a,b)".toList := by decide +kernel
  have hbad : Balanced "y=(,),!".toList ∧ ¬Blank "y=(,),!".toList := by decide +kernel
  have hnone : Balanced "!y".toList ∧ ¬Blank "!y".toList := by decide +kernel
  have htab : Balanced "\t".toList ∧ Blank "\t".toList := by decide +kernel
  refine ⟨?_, ?_, ?_, ?_, ?_⟩
  · exact ((h.1 _ _ hset.1 hbad.1).1 hset.2 hbad.2).1.trans (by decide +kernel)
  · exact ((h.1 _ _ hset.1 hnone.1).1 hset.2 hnone.2).2 _ _ (by decide +kernel) (by decide +kernel)
  · exact (h.1 _ _ htab.1 hbad.1).2.1 htab.2
  · exact ((h.1 _ _ hbad.1 htab.1).2.2 htab.2).trans (by decide +kernel)
  · exact (h.2 _).2 (by decide +kernel)

end Selector

end Visibility.Label
