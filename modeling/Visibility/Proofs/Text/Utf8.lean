import Visibility.Text.Utf8

namespace Visibility.Text

theorem utf8_eq_flatMap (s : String) : utf8 s = s.toList.flatMap String.utf8EncodeChar := by
  have h : s.toByteArray = (s.toList.flatMap String.utf8EncodeChar).toByteArray :=
    String.utf8Encode_toList.symm
  rw [utf8, String.toUTF8, h, List.data_toByteArray]

theorem val_lt (c : Char) : c.val.toNat < 0x110000 := by
  have hvalid := c.valid
  simp only [UInt32.isValidChar, Nat.isValidChar] at hvalid
  omega

theorem exists_digits {n : Nat} (hn : n < 0x110000) :
    ∃ a b c d, n / 262144 % 8 = a ∧ n / 4096 % 64 = b ∧ n / 64 % 64 = c ∧ n % 64 = d ∧
      a < 8 ∧ b < 64 ∧ c < 64 ∧ d < 64 ∧ n = 262144 * a + 4096 * b + 64 * c + d :=
  ⟨_, _, _, _, rfl, rfl, rfl, rfl, by omega, by omega, by omega, by omega, by omega⟩

/-- Of two characters the lesser one has the lesser bytes, whatever follows. -/
theorem utf8EncodeChar_lt {c d : Char} (h : c < d) (cs ds : List UInt8) :
    String.utf8EncodeChar c ++ cs < String.utf8EncodeChar d ++ ds := by
  have hlt : c.val.toNat < d.val.toNat := h
  have hn := val_lt d
  simp only [String.utf8EncodeChar]
  generalize c.val.toNat = m at hlt
  generalize d.val.toNat = n at hlt hn
  by_cases hm : 65535 < m
  · obtain ⟨a, b, c, d, ha, hb, hc, hd, ha8, hb64, hc64, hd64, hm'⟩ :=
      exists_digits (Nat.lt_trans hlt hn)
    obtain ⟨a', b', c', d', ha', hb', hc', hd', ha8', hb64', hc64', hd64', hn'⟩ := exists_digits hn
    rw [if_neg (by omega), if_neg (by omega), if_neg (by omega), if_neg (by omega),
      if_neg (by omega), if_neg (by omega), ha, hb, hc, hd, ha', hb', hc', hd']
    clear ha hb hc hd ha' hb' hc' hd'
    simp only [List.cons_append, List.nil_append, List.cons_lt_cons_iff, UInt8.lt_iff_toNat_lt,
      ← UInt8.toNat_inj, UInt8.toNat_ofNat']
    omega
  · repeat' split
    all_goals
      simp only [List.cons_append, List.nil_append, List.cons_lt_cons_iff, UInt8.lt_iff_toNat_lt,
        ← UInt8.toNat_inj, UInt8.toNat_ofNat']
      omega

theorem flatMap_utf8EncodeChar_lt {l l' : List Char} (h : l < l') :
    l.flatMap String.utf8EncodeChar < l'.flatMap String.utf8EncodeChar := by
  induction h with
  | @nil c l =>
      cases hc : String.utf8EncodeChar c with
      | nil => exact absurd hc String.utf8EncodeChar_ne_nil
      | cons b bs =>
          rw [List.flatMap_nil, List.flatMap_cons, hc]
          exact List.nil_lt_cons _ _
  | cons _ ih =>
      rw [List.flatMap_cons, List.flatMap_cons]
      exact List.append_left_lt ih
  | rel hcd =>
      rw [List.flatMap_cons, List.flatMap_cons]
      exact utf8EncodeChar_lt hcd _ _

theorem utf8_lt_iff {a b : String} : utf8 a < utf8 b ↔ a < b := by
  have hmono : ∀ {a b : String}, a < b → utf8 a < utf8 b := by
    intro a b h
    rw [utf8_eq_flatMap, utf8_eq_flatMap]
    exact flatMap_utf8EncodeChar_lt (String.lt_iff.1 h)
  constructor
  · intro h
    refine Decidable.by_contra fun hab => ?_
    by_cases hba : b < a
    · exact absurd (List.lt_trans h (hmono hba)) (List.lt_irrefl _)
    · rw [String.le_antisymm (String.not_lt.1 hba) (String.not_lt.1 hab)] at h
      exact absurd h (List.lt_irrefl _)
  · exact hmono

theorem utf8_inj {a b : String} : utf8 a = utf8 b ↔ a = b := by
  constructor
  · intro h
    rw [← String.toByteArray_inj]
    exact ByteArray.ext (Array.toList_inj.1 h)
  · rintro rfl
    rfl

theorem utf8_injective : Function.Injective utf8 := fun _ _ => utf8_inj.1

theorem isEmpty_iff_utf8 {s : String} : s.isEmpty = true ↔ utf8 s = [] := by
  rw [String.isEmpty_iff, ← utf8_inj]
  rfl

theorem utf8EncodeChar_ofNat {b : UInt8} (h : b < 0x80) : String.utf8EncodeChar (Char.ofNat b.toNat) = [b] := by
  have hb : b.toNat < 0x80 := UInt8.lt_iff_toNat_lt.1 h
  have hvalue : (Char.ofNat b.toNat).val.toNat = b.toNat := by
    rw [Char.ofNat, dif_pos (Or.inl (by omega))]
    rfl
  simp only [String.utf8EncodeChar, hvalue]
  rw [if_pos (by omega), UInt8.ofNat_toNat]

theorem zero_mem_utf8EncodeChar {c : Char} (h : 0 ∈ String.utf8EncodeChar c) : c = '\x00' := by
  have hn := val_lt c
  rw [← Char.val_inj, ← UInt32.toNat_inj]
  change c.val.toNat = 0
  simp only [String.utf8EncodeChar] at h
  generalize c.val.toNat = n at h hn
  repeat' split at h
  all_goals
    simp only [List.mem_cons, List.not_mem_nil, or_false, ← UInt8.toNat_inj, UInt8.toNat_ofNat', UInt8.toNat_ofNat] at h
    omega

theorem zero_notMem_utf8 {s : String} (h : '\x00' ∉ s.toList) : 0 ∉ utf8 s := by
  rw [utf8_eq_flatMap, List.mem_flatMap]
  rintro ⟨c, hc, hzero⟩
  exact h (zero_mem_utf8EncodeChar hzero ▸ hc)

end Visibility.Text
