import Visibility.Proofs.Label.Cutting

/-!
The parser of label selectors accepts exactly what its grammar writes, and reads what is written.

The parser never looks back: it cuts a text at the first sign or white space that it finds. That is the right
place because no sign occurs in a key, and none but commas and parentheses in a set of values.
-/

namespace Visibility.Label

open Text (Blank Solid Spaced isBlank trim trimStart splitAt)

variable {s t x y z : List Char} {k v : String} {o : Operator} {r : Requirement} {rs : List Requirement}
  {vs : List String}

/-- Reads a requirement that has a key alone. -/
def readLone (o : Operator) (key : List Char) : Except ParseError Requirement := do
  return ⟨← readKey key, o, ∅⟩

/-- Reads a requirement of a key and one value. -/
def readPair (o : Operator) (key value : List Char) : Except ParseError Requirement := do
  let key ← readKey (trim key)
  let value ← readValue (trim value)
  return ⟨key, o, NameSet.ofList [value]⟩

/-- Reads what follows a key that white space ends: an operator in letters, and a set of values. -/
def readSetAfter (requirement key rest : List Char) : Except ParseError Requirement := do
  let key ← readKey (trim key)
  match after? ['n', 'o', 't', 'i', 'n'] (trimStart rest) with
  | some set => readSet requirement .notIn key set
  | none =>
      match after? ['i', 'n'] (trimStart rest) with
      | some set => readSet requirement .isIn key set
      | none => .error (.invalidRequirement (String.ofList requirement))

/-- Reads a requirement from a text that is trimmed. -/
def readTrimmed (s : List Char) : Except ParseError Requirement :=
  match after? ['!'] s with
  | some key => readLone .absent (trim key)
  | none =>
      match cut? ['!', '='] s with
      | some (key, value) => readPair .notIn key value
      | none =>
          match cut? ['='] s with
          | some (key, value) => readPair .isIn key ((after? ['='] value).getD value)
          | none =>
              match cutAtBlank? s with
              | some (key, rest) => readSetAfter s key rest
              | none => readLone .present s

theorem readRequirement_eq (text : List Char) :
    readRequirement text =
      if (trim text).isEmpty then .error .emptyRequirement else readTrimmed (trim text) := by
  unfold readRequirement readTrimmed
  generalize trim text = s
  dsimp only
  by_cases hs : s.isEmpty = true
  · rw [if_pos hs, if_pos hs]
    rfl
  · rw [if_neg hs, if_neg hs]
    cases after? ['!'] s with
    | some key => rfl
    | none =>
        cases cut? ['!', '='] s with
        | some p => rfl
        | none =>
            cases cut? ['='] s with
            | some p => rfl
            | none =>
                cases cutAtBlank? s with
                | none => rfl
                | some p =>
                    refine bind_congr fun key => ?_
                    cases after? ['n', 'o', 't', 'i', 'n'] (trimStart p.2) with
                    | some set => rfl
                    | none => cases after? ['i', 'n'] (trimStart p.2) <;> rfl

theorem readLone_eq_ok_iff : readLone o x = .ok r ↔ ∃ k, readKey x = .ok k ∧ r = ⟨k, o, ∅⟩ := by
  rw [readLone, bind_eq_ok_iff]
  constructor
  · rintro ⟨k, hk, ⟨⟩⟩
    exact ⟨k, hk, rfl⟩
  · rintro ⟨k, hk, rfl⟩
    exact ⟨k, hk, rfl⟩

theorem readPair_eq_ok_iff :
    readPair o x y = .ok r ↔
      ∃ k v, KeyText k ∧ ValueText v ∧ Spaced [k.toList] x ∧ Spaced [v.toList] y ∧
        r = ⟨k, o, NameSet.ofList [v]⟩ := by
  rw [readPair, bind_eq_ok_iff]
  constructor
  · rintro ⟨k, hk, hrest⟩
    obtain ⟨v, hv, ⟨⟩⟩ := bind_eq_ok_iff.1 hrest
    rw [readKey_trim_eq_ok_iff] at hk
    rw [readValue_trim_eq_ok_iff] at hv
    exact ⟨k, v, hk.1, hv.1, hk.2, hv.2, rfl⟩
  · rintro ⟨k, v, hk, hv, hx, hy, rfl⟩
    exact ⟨k, readKey_trim_eq_ok_iff.2 ⟨hk, hx⟩,
      bind_eq_ok_iff.2 ⟨v, readValue_trim_eq_ok_iff.2 ⟨hv, hy⟩, rfl⟩⟩

theorem readSet_eq_ok_iff {requirement : List Char} :
    readSet requirement o k s = .ok r ↔
      ∃ vs, vs ≠ [] ∧ (∀ v ∈ vs, v ≠ "" ∧ ValueText v) ∧ Spaced (setTokens vs) s ∧
        r = ⟨k, o, NameSet.ofList vs⟩ := by
  constructor
  · intro h
    rw [readSet] at h
    split at h
    · cases h
    · rename_i members hmembers
      rw [unwrap?_eq_some_iff] at hmembers
      obtain ⟨vs, hvs, ⟨⟩⟩ := bind_eq_ok_iff.1 h
      rw [mapM_eq_ok_iff_forall₂] at hvs
      have hne : vs ≠ [] := by
        rintro rfl
        exact Text.splitAt_ne_nil ',' members (List.forall₂_nil_left_iff.1 hvs)
      refine ⟨vs, hne, fun v hv => ?_, ?_, rfl⟩
      · obtain ⟨part, -, hpart⟩ := exists_of_mem_right hvs.flip hv
        exact (readMember_eq_ok_iff.1 hpart).1
      · obtain ⟨b, e, hb, he, hs⟩ := Text.exists_append_trim_append s
        refine (spaced_setTokens_iff hne).2 ⟨b, splitAt ',' members, e, ?_, hb, he, ?_⟩
        · rw [Text.intercalate_splitAt, List.singleton_append, ← hmembers]
          exact hs
        · exact hvs.imp fun v part hv => (readMember_eq_ok_iff.1 hv).2
  · rintro ⟨vs, hne, hvs, hs, rfl⟩
    obtain ⟨b, parts, e, rfl, hb, he, hparts⟩ := (spaced_setTokens_iff hne).1 hs
    have hunwrap : unwrap? (trim (b ++ (['('] ++ [','].intercalate parts ++ [')']) ++ e)) =
        some ([','].intercalate parts) := by
      rw [unwrap?_eq_some_iff, List.singleton_append]
      exact Text.trim_between hb he (by decide) (by decide)
    have hplain := plain_of_values (fun v hv => (hvs v hv).2) hparts
    have hsplit : splitAt ',' ([','].intercalate parts) = parts := by
      refine Text.splitAt_intercalate ?_ fun part hpart => not_mem_of_plain (hplain part hpart) (by decide)
      rintro rfl
      exact hne (List.forall₂_nil_right_iff.1 hparts)
    have hread : parts.mapM readMember = .ok vs := by
      rw [mapM_eq_ok_iff_forall₂]
      have hall := (List.forall₂_and_left vs parts).2 ⟨hvs, hparts⟩
      exact hall.imp fun v part h => readMember_eq_ok_iff.2 h
    rw [readSet, hunwrap]
    exact bind_eq_ok_iff.2 ⟨vs, by rw [hsplit, hread], rfl⟩

theorem after?_trimStart_iff {a : Char} {word : List Char} (ha : isBlank a = false) :
    after? (a :: word) (trimStart s) = some y ↔ ∃ b, Blank b ∧ s = b ++ (a :: word) ++ y := by
  rw [after?_eq_some_iff]
  constructor
  · intro h
    obtain ⟨b, hb, hs⟩ := Text.exists_append_trimStart s
    refine ⟨b, hb, ?_⟩
    rwa [h, ← List.append_assoc] at hs
  · rintro ⟨b, hb, rfl⟩
    rw [List.append_assoc, Text.trimStart_append_of_blank hb, List.cons_append, trimStart,
      List.dropWhile_cons_of_neg (by rw [ha]; exact Bool.false_ne_true)]

theorem readSetAfter_eq_ok_iff {requirement : List Char} :
    readSetAfter requirement x y = .ok r ↔
      ∃ k vs o word, KeyText k ∧ vs ≠ [] ∧ (∀ v ∈ vs, v ≠ "" ∧ ValueText v) ∧ Word o word ∧
        Spaced [k.toList] x ∧ Spaced (word :: setTokens vs) y ∧ r = ⟨k, o, NameSet.ofList vs⟩ := by
  rw [readSetAfter, bind_eq_ok_iff]
  constructor
  · rintro ⟨k, hk, hrest⟩
    rw [readKey_trim_eq_ok_iff] at hk
    split at hrest
    · rename_i set hset
      obtain ⟨b, hb, rfl⟩ := (after?_trimStart_iff (by decide)).1 hset
      obtain ⟨vs, hne, hvs, hs, rfl⟩ := readSet_eq_ok_iff.1 hrest
      exact ⟨k, vs, _, _, hk.1, hne, hvs, .notIn, hk.2, .token hb hs, rfl⟩
    · split at hrest
      · rename_i set hset
        obtain ⟨b, hb, rfl⟩ := (after?_trimStart_iff (by decide)).1 hset
        obtain ⟨vs, hne, hvs, hs, rfl⟩ := readSet_eq_ok_iff.1 hrest
        exact ⟨k, vs, _, _, hk.1, hne, hvs, .isIn, hk.2, .token hb hs, rfl⟩
      · cases hrest
  · rintro ⟨k, vs, o, word, hk, hne, hvs, hword, hx, hy, rfl⟩
    refine ⟨k, readKey_trim_eq_ok_iff.2 ⟨hk, hx⟩, ?_⟩
    obtain ⟨b, set, rfl, hb, hset⟩ := Spaced.cons_iff.1 hy
    have hread : ∀ requirement o, readSet requirement o k set = .ok ⟨k, o, NameSet.ofList vs⟩ :=
      fun requirement o => readSet_eq_ok_iff.2 ⟨vs, hne, hvs, hset, rfl⟩
    cases hword with
    | notIn =>
        rw [(after?_trimStart_iff (by decide)).2 ⟨b, hb, rfl⟩]
        exact hread _ _
    | isIn =>
        have hnot : after? ['n', 'o', 't', 'i', 'n'] (trimStart (b ++ ['i', 'n'] ++ set)) = none := by
          rw [List.append_assoc, Text.trimStart_append_of_blank hb]
          rfl
        rw [hnot, (after?_trimStart_iff (by decide)).2 ⟨b, hb, rfl⟩]
        exact hread _ _

/-- What is read is written: each cut of the parser leaves the tokens of a form of the grammar. -/
theorem writes_of_readTrimmed (h : readTrimmed s = .ok r) : Writes r s := by
  rw [readTrimmed] at h
  split at h
  · rename_i key hkey
    rw [after?_eq_some_iff] at hkey
    obtain ⟨k, hk, rfl⟩ := readLone_eq_ok_iff.1 h
    rw [readKey_trim_eq_ok_iff] at hk
    rw [hkey]
    exact .absent hk.1 (.token Text.blank_nil hk.2)
  · split at h
    · rename_i key value hcut
      obtain ⟨k, v, hk, hv, hx, hy, rfl⟩ := readPair_eq_ok_iff.1 h
      rw [eq_append_of_cut? hcut]
      exact .compare hk hv .unequal (Spaced.middle_iff.2 ⟨_, _, rfl, hx, hy⟩)
    · split at h
      · rename_i key value hcut
        obtain ⟨k, v, hk, hv, hx, hy, rfl⟩ := readPair_eq_ok_iff.1 h
        rw [eq_append_of_cut? hcut]
        cases hvalue : after? ['='] value with
        | none =>
            rw [hvalue] at hy
            exact .compare hk hv .single (Spaced.middle_iff.2 ⟨_, _, rfl, hx, hy⟩)
        | some value' =>
            rw [hvalue] at hy
            rw [after?_eq_some_iff] at hvalue
            refine .compare hk hv .double (Spaced.middle_iff.2 ⟨key, value', ?_, hx, hy⟩)
            rw [hvalue, ← List.append_assoc, List.append_assoc key]
            rfl
      · split at h
        · rename_i key rest hcut
          obtain ⟨k, vs, o, word, hk, hne, hvs, hword, hx, hy, rfl⟩ := readSetAfter_eq_ok_iff.1 h
          obtain ⟨c, hc, rfl⟩ := eq_append_of_cutAtBlank? hcut
          exact .set hk hne hvs hword hx hc hy
        · obtain ⟨k, hk, rfl⟩ := readLone_eq_ok_iff.1 h
          obtain ⟨rfl, hkey⟩ := readKey_eq_ok_iff.1 hk
          exact .present hkey (.single _)

theorem KeyText.ne_nil_of_spaced (hk : KeyText k) (hx : Spaced [k.toList] x) : x ≠ [] := by
  obtain ⟨c, hc⟩ := hk.exists_mem
  exact List.ne_nil_of_mem (hx.mem_of_mem List.mem_cons_self hc)

theorem exists_key_append (hk : KeyText k) {word : List Char} {c : Char} {ts : List (List Char)}
    (hx : Spaced [k.toList] x) (hc : isBlank c = true) (ht : Spaced (word :: ts) t)
    (htrim : trimStart (x ++ c :: t) = x ++ c :: t) :
    ∃ c' t', x ++ c :: t = k.toList ++ c' :: t' ∧ isBlank c' = true ∧ Spaced (word :: ts) t' := by
  obtain ⟨a, ha⟩ := hk.exists_mem
  rw [Text.trimStart_append_of_not_blank (hx.not_blank List.mem_cons_self ha hk.solid)] at htrim
  have hstart : trimStart x = x := List.append_cancel_right htrim
  obtain ⟨e, rfl, he⟩ := hx.exists_append_of_trimStart hk.solid (List.ne_nil_of_mem ha) hstart
  rw [Spaced.nil_iff] at he
  cases e with
  | nil => exact ⟨c, t, by rw [List.append_nil], hc, ht⟩
  | cons c' e =>
      have hrest : Blank (e ++ [c]) := by
        refine Text.blank_append_iff.2 ⟨fun a ha => he a (List.mem_cons_of_mem _ ha), fun a ha => ?_⟩
        rwa [List.mem_singleton.1 ha]
      refine ⟨c', e ++ [c] ++ t, ?_, he c' List.mem_cons_self, ht.pad_left hrest⟩
      simp only [List.append_assoc, List.cons_append, List.nil_append]

theorem sign_of_mem_setTokens (hne : vs ≠ []) (hvs : ∀ v ∈ vs, ValueText v) (hs : Spaced (setTokens vs) s)
    {c : Char} (hc : c ∈ s) : Plain c ∨ c = '(' ∨ c = ')' ∨ c = ',' := by
  obtain ⟨b, parts, e, rfl, hb, he, hparts⟩ := (spaced_setTokens_iff hne).1 hs
  simp only [List.mem_append, List.mem_singleton] at hc
  obtain (hc | (hc | hc) | hc) | hc := hc
  · exact .inl (.inl (hb c hc))
  · exact .inr (.inl hc)
  · obtain hc | ⟨part, hpart, hc⟩ := Text.mem_intercalate hc
    · exact .inr (.inr (.inr (List.mem_singleton.1 hc)))
    · exact .inl (plain_of_values hvs hparts part hpart c hc)
  · exact .inr (.inr (.inl hc))
  · exact .inl (.inl (he c hc))

theorem not_mem_set (hk : KeyText k) {word : List Char} {c a : Char} (hword : Word o word)
    (hne : vs ≠ []) (hvs : ∀ v ∈ vs, ValueText v) (hx : Spaced [k.toList] x) (hc : isBlank c = true)
    (ht : Spaced (word :: setTokens vs) t) (ha : ¬(Plain a ∨ a = '(' ∨ a = ')' ∨ a = ',')) :
    a ∉ x ++ c :: t := by
  obtain ⟨b, y, rfl, hb, hy⟩ := Spaced.cons_iff.1 ht
  simp only [List.mem_append, List.mem_cons]
  rintro (h | rfl | (h | h) | h)
  · exact ha (.inl (hk.plain hx a h))
  · exact ha (.inl (.inl hc))
  · exact ha (.inl (.inl (hb a h)))
  · exact ha (.inl (.inr (hword.keyChar a h)))
  · exact ha (sign_of_mem_setTokens hne hvs hy h)

theorem readTrimmed_present (hk : KeyText k) (hs : Spaced [k.toList] s) (htrim : trim s = s) :
    readTrimmed s = .ok ⟨k, .present, ∅⟩ := by
  have hkey : s = k.toList := htrim.symm.trans ((Spaced.single_iff hk.solid).1 hs)
  have hbang : '!' ∉ s := not_mem_of_plain (hk.plain hs) (by decide)
  have hequal : '=' ∉ s := not_mem_of_plain (hk.plain hs) (by decide)
  have hsolid : Solid s := by
    rw [hkey]
    exact hk.solid
  rw [readTrimmed, after?_eq_none hbang, cut?_eq_none hbang, cut?_eq_none hequal, cutAtBlank?_of_solid hsolid]
  exact readLone_eq_ok_iff.2 ⟨k, readKey_eq_ok_iff.2 ⟨hkey.symm, hk⟩, rfl⟩

theorem readTrimmed_absent (hk : KeyText k) (hs : Spaced [['!'], k.toList] s) (hstart : trimStart s = s) :
    readTrimmed s = .ok ⟨k, .absent, ∅⟩ := by
  have hsolid : Solid ['!'] := fun c hc => by rw [List.mem_singleton.1 hc]; rfl
  obtain ⟨y, rfl, hy⟩ := hs.exists_append_of_trimStart hsolid (List.cons_ne_nil _ _) hstart
  rw [readTrimmed, after?_eq_some_iff.2 rfl]
  exact readLone_eq_ok_iff.2 ⟨k, readKey_trim_eq_ok_iff.2 ⟨hk, hy⟩, rfl⟩

theorem readTrimmed_compare {sign : List Char} (hk : KeyText k) (hv : ValueText v) (hsign : Sign o sign)
    (hs : Spaced [k.toList, sign, v.toList] s) : readTrimmed s = .ok ⟨k, o, NameSet.ofList [v]⟩ := by
  have htokens : Spaced ([k.toList] ++ sign :: [v.toList]) s := hs
  obtain ⟨x, y, rfl, hx, hy⟩ := Spaced.middle_iff.1 htokens
  have hbang : '!' ∉ x := not_mem_of_plain (hk.plain hx) (by decide)
  have hequal : '=' ∉ x := not_mem_of_plain (hk.plain hx) (by decide)
  have hbang' : '!' ∉ y := not_mem_of_plain (hv.plain hy) (by decide)
  have hequal' : '=' ∉ y := not_mem_of_plain (hv.plain hy) (by decide)
  have hread : ∀ o, readPair o x y = .ok ⟨k, o, NameSet.ofList [v]⟩ :=
    fun o => readPair_eq_ok_iff.2 ⟨k, v, hk, hv, hx, hy, rfl⟩
  rw [readTrimmed, List.append_assoc, after?_append_eq_none (hk.ne_nil_of_spaced hx) hbang, ← List.append_assoc]
  cases hsign with
  | unequal =>
      rw [cut?_append hbang]
      exact hread _
  | single =>
      have hno : '!' ∉ x ++ ['='] ++ y := by simp [hbang, hbang']
      rw [cut?_eq_none hno, cut?_append hequal]
      dsimp only
      rw [after?_eq_none hequal']
      exact hread _
  | double =>
      have hno : '!' ∉ x ++ ['=', '='] ++ y := by simp [hbang, hbang']
      have hcut : cut? ['='] (x ++ ['=', '='] ++ y) = some (x, '=' :: y) := by
        have h := cut?_append (p := []) hequal ('=' :: y)
        rwa [List.append_assoc] at h ⊢
      have hsecond : after? ['='] ('=' :: y) = some y := after?_eq_some_iff.2 rfl
      rw [cut?_eq_none hno, hcut]
      dsimp only
      rw [hsecond]
      exact hread _

theorem readTrimmed_set {word : List Char} {c : Char} (hk : KeyText k) (hne : vs ≠ [])
    (hvs : ∀ v ∈ vs, v ≠ "" ∧ ValueText v) (hword : Word o word) (hx : Spaced [k.toList] x)
    (hc : isBlank c = true) (ht : Spaced (word :: setTokens vs) t)
    (hstart : trimStart (x ++ c :: t) = x ++ c :: t) :
    readTrimmed (x ++ c :: t) = .ok ⟨k, o, NameSet.ofList vs⟩ := by
  have hvalues : ∀ v ∈ vs, ValueText v := fun v hv => (hvs v hv).2
  have hbang : '!' ∉ x ++ c :: t := not_mem_set hk hword hne hvalues hx hc ht (by decide)
  have hequal : '=' ∉ x ++ c :: t := not_mem_set hk hword hne hvalues hx hc ht (by decide)
  rw [readTrimmed, after?_eq_none hbang, cut?_eq_none hbang, cut?_eq_none hequal]
  obtain ⟨c', t', hs, hc', ht'⟩ := exists_key_append hk hx hc ht hstart
  rw [hs, cutAtBlank?_append hk.solid hc']
  exact readSetAfter_eq_ok_iff.2 ⟨k, vs, o, word, hk, hne, hvs, hword, .single _, ht', rfl⟩

theorem readRequirement_eq_ok_iff {text : List Char} : readRequirement text = .ok r ↔ Writes r text := by
  rw [readRequirement_eq]
  constructor
  · intro h
    split at h
    · cases h
    · exact (writes_of_readTrimmed h).of_trim
  · intro h
    have hne : ¬(trim text).isEmpty = true := by
      rw [List.isEmpty_iff, Text.trim_eq_nil_iff]
      exact h.not_blank
    have htrim : trim (trim text) = trim text := Text.trim_trim text
    have hstart : trimStart (trim text) = trim text := Text.trimStart_trim text
    have hwrites := h.trim
    rw [if_neg hne]
    generalize trim text = s at hwrites htrim hstart
    cases hwrites with
    | present hk hs => exact readTrimmed_present hk hs htrim
    | absent hk hs => exact readTrimmed_absent hk hs hstart
    | compare hk hv hsign hs => exact readTrimmed_compare hk hv hsign hs
    | set hk hne hvs hword hx hc ht => exact readTrimmed_set hk hne hvs hword hx hc ht hstart

theorem Leads.plain {d : Nat} (hs : ∀ c ∈ s, Plain c ∨ c = '!' ∨ c = '=') : Leads d d s :=
  Leads.level fun c hc => by
    have hsign : ∀ a, ¬(Plain a ∨ a = '!' ∨ a = '=') → c ≠ a := by
      rintro a ha rfl
      exact ha (hs c hc)
    exact ⟨hsign '(' (by decide), hsign ')' (by decide), fun h => absurd h (hsign ',' (by decide))⟩

theorem Writes.leads (h : Writes r s) : Leads 0 0 s := by
  have hsigns : ∀ {ts : List (List Char)} {s : List Char}, Spaced ts s →
      (∀ t ∈ ts, ∀ c ∈ t, Plain c ∨ c = '!' ∨ c = '=') → Leads 0 0 s := by
    intro ts s hs hts
    refine Leads.plain fun c hc => ?_
    obtain hblank | ⟨t, ht, hct⟩ := hs.blank_or_mem hc
    · exact .inl (.inl hblank)
    · exact hts t ht c hct
  cases h with
  | present hk hs => exact Leads.plain fun c hc => .inl (hk.plain hs c hc)
  | absent hk hs =>
      refine hsigns hs fun t ht c hc => ?_
      simp only [List.mem_cons, List.not_mem_nil, or_false] at ht
      obtain rfl | rfl := ht
      · exact .inr (.inl (List.mem_singleton.1 hc))
      · exact .inl (.inr (hk.2.2 c hc))
  | compare hk hv hsign hs =>
      refine hsigns hs fun t ht c hc => ?_
      simp only [List.mem_cons, List.not_mem_nil, or_false] at ht
      obtain rfl | rfl | rfl := ht
      · exact .inl (.inr (hk.2.2 c hc))
      · cases hsign <;> simp at hc <;> simp [hc]
      · exact .inl (.inr (hv.keyChar c hc))
  | @set k vs o word x t c hk hvs hvalues hword hx hc ht =>
      obtain ⟨b, y, rfl, hb, hy⟩ := Spaced.cons_iff.1 ht
      obtain ⟨b', parts, e, rfl, hb', he, hparts⟩ := (spaced_setTokens_iff hvs).1 hy
      have hplain := plain_of_values (fun v hv => (hvalues v hv).2) hparts
      have hbefore : Leads 0 0 (x ++ c :: (b ++ word ++ b')) := Leads.plain fun a ha => by
        simp only [List.mem_append, List.mem_cons] at ha
        obtain ha | rfl | (ha | ha) | ha := ha
        · exact .inl (hk.plain hx a ha)
        · exact .inl (.inl hc)
        · exact .inl (.inl (hb a ha))
        · exact .inl (.inr (hword.keyChar a ha))
        · exact .inl (.inl (hb' a ha))
      have hinside : Leads 1 1 ([','].intercalate parts) := Leads.level fun a ha => by
        obtain ha | ⟨part, hpart, ha⟩ := Text.mem_intercalate ha
        · rw [List.mem_singleton.1 ha]
          decide
        · have hpa := hplain part hpart a ha
          exact ⟨hpa.ne (by decide), hpa.ne (by decide), fun _ => Nat.one_ne_zero⟩
      have hafter : Leads 0 0 e := Leads.plain fun a ha => .inl (.inl (he a ha))
      have hwhole := (((hbefore.append (.opening 0)).append hinside).append (.closing 0)).append hafter
      simpa only [List.append_assoc, List.cons_append] using hwhole

theorem Written.not_blank (h : Written rs s) (hrs : rs ≠ []) : ¬Blank s := by
  obtain ⟨parts, hparts, rfl⟩ := h
  cases hparts with
  | nil => exact absurd rfl hrs
  | @cons r part rs parts hpart hparts =>
      intro hblank
      refine hpart.not_blank fun c hc => hblank c ?_
      cases parts with
      | nil => rwa [List.intercalate_singleton]
      | cons q parts =>
          rw [List.intercalate_cons_cons, List.append_assoc]
          exact List.mem_append_left _ hc

theorem splitRequirements_mapM_eq_ok_iff :
    (∃ parts, splitRequirements s = .ok parts ∧ parts.mapM readRequirement = .ok rs) ↔
      rs ≠ [] ∧ Written rs s := by
  simp only [mapM_eq_ok_iff_forall₂, readRequirement_eq_ok_iff]
  constructor
  · rintro ⟨parts, hsplit, hparts⟩
    obtain ⟨hne, hjoin⟩ := intercalate_splitAtDepth hsplit
    refine ⟨?_, parts, hparts, hjoin.symm⟩
    rintro rfl
    exact hne (List.forall₂_nil_left_iff.1 hparts)
  · rintro ⟨hne, parts, hparts, rfl⟩
    refine ⟨parts, splitAtDepth_intercalate ?_ fun part hpart => ?_, hparts⟩
    · rintro rfl
      exact hne (List.forall₂_nil_right_iff.1 hparts)
    · obtain ⟨r, -, hr⟩ := exists_of_mem_right hparts hpart
      exact hr.leads

theorem Selector.parse_eq_ok_iff {text : String} {selector : Selector} :
    Selector.parse text = .ok selector ↔
      (Blank text.toList ∧ selector = .everything) ∨
        ∃ rs, rs ≠ [] ∧ Written rs text.toList ∧ selector = .ofRequirements rs := by
  rw [Selector.parse]
  by_cases hblank : Blank text.toList
  · have hempty : (trim text.toList).isEmpty = true := by rwa [List.isEmpty_iff, Text.trim_eq_nil_iff]
    rw [if_pos hempty]
    constructor
    · intro h
      cases h
      exact .inl ⟨hblank, rfl⟩
    · rintro (⟨-, rfl⟩ | ⟨rs, hne, hs, -⟩)
      · rfl
      · exact absurd hblank (hs.not_blank hne)
  · have hempty : ¬(trim text.toList).isEmpty = true := by rwa [List.isEmpty_iff, Text.trim_eq_nil_iff]
    rw [if_neg hempty, bind_eq_ok_iff]
    constructor
    · rintro ⟨parts, hparts, h⟩
      obtain ⟨rs, hrs, ⟨⟩⟩ := bind_eq_ok_iff.1 h
      obtain ⟨hne, hs⟩ := splitRequirements_mapM_eq_ok_iff.1 ⟨parts, hparts, hrs⟩
      exact .inr ⟨rs, hne, hs, rfl⟩
    · rintro (⟨hblank', -⟩ | ⟨rs, hne, hs, rfl⟩)
      · exact absurd hblank' hblank
      · obtain ⟨parts, hparts, hrs⟩ := splitRequirements_mapM_eq_ok_iff.2 ⟨hne, hs⟩
        exact ⟨parts, hparts, bind_eq_ok_iff.2 ⟨rs, hrs, rfl⟩⟩

/-- The parser accepts the blank texts, which ask for nothing, and the texts of the grammar, which ask for the
requirements that they write, in their order. Requirements can be written if their keys and values are those of
labels, with values where they count and the empty one only by itself; and however they are written, they are
read back. -/
theorem Selector.parse_exact :
    (∀ (text : String) (selector : Selector),
      Selector.parse text = .ok selector ↔
        (Blank text.toList ∧ selector = .everything) ∨
          ∃ rs, rs ≠ [] ∧ Written rs text.toList ∧ selector = .ofRequirements rs) ∧
    (∀ rs : List Requirement, (∃ s, Written rs s) ↔ ∀ r ∈ rs, r.WellFormed) ∧
    (∀ (rs : List Requirement) (s : List Char), rs ≠ [] → Written rs s →
      Selector.parse (String.ofList s) = .ok (.ofRequirements rs)) := by
  refine ⟨fun text selector => Selector.parse_eq_ok_iff, fun rs => exists_written_iff, ?_⟩
  intro rs s hne hs
  refine Selector.parse_eq_ok_iff.2 (.inr ⟨rs, hne, ?_, rfl⟩)
  rwa [String.toList_ofList]

example : Selector.parse "env==prod,tier\tnotin ( web,api ) ,! legacy" =
    .ok (.ofRequirements [⟨"env", .isIn, NameSet.ofList ["prod"]⟩,
      ⟨"tier", .notIn, NameSet.ofList ["api", "web"]⟩, ⟨"legacy", .absent, ∅⟩]) := by
  decide +kernel

end Visibility.Label
