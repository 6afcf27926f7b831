import Mathlib.Algebra.Ring.Nat
import Mathlib.Data.List.Basic
import Visibility.Digest
import Visibility.Proofs.Text.Utf8

namespace Visibility.Digest

/-- A text without the character that ends fields. -/
def NulFree (s : String) : Prop := '\x00' ∉ s.toList

instance (s : String) : Decidable (NulFree s) := inferInstanceAs (Decidable (_ ∉ _))

theorem fieldBytes_cons (f : String) (fields : List String) :
    fieldBytes (f :: fields) = Text.utf8 f ++ 0 :: fieldBytes fields := by
  rw [fieldBytes, List.flatMap_cons, List.append_assoc]
  rfl

theorem fieldBytes_append (fields fields' : List String) :
    fieldBytes (fields ++ fields') = fieldBytes fields ++ fieldBytes fields' := List.flatMap_append

theorem append_zero_inj {x x' y y' : List UInt8} (hx : 0 ∉ x) (hx' : 0 ∉ x') :
    x ++ 0 :: y = x' ++ 0 :: y' ↔ x = x' ∧ y = y' := by
  have hstop : ∀ {x x' y y' : List UInt8}, 0 ∉ x' → ∀ z, x' = x ++ z → 0 :: y = z ++ 0 :: y' → z = [] := by
    rintro x _ y y' hx' z rfl hy
    cases z with
    | nil => rfl
    | cons b z =>
        obtain ⟨rfl, -⟩ := List.cons.inj hy
        exact absurd (List.mem_append_right _ List.mem_cons_self) hx'
  constructor
  · intro h
    obtain ⟨z, hz, hy⟩ | ⟨z, hz, hy⟩ := List.append_eq_append_iff.1 h
    · obtain rfl := hstop hx' z hz hy
      exact ⟨by rw [hz, List.append_nil], (List.cons.inj hy).2⟩
    · obtain rfl := hstop hx z hz hy
      exact ⟨by rw [hz, List.append_nil], (List.cons.inj hy).2.symm⟩
  · rintro ⟨rfl, rfl⟩
    rfl

theorem fieldBytes_inj {fields fields' : List String} (h : ∀ f ∈ fields, NulFree f)
    (h' : ∀ f ∈ fields', NulFree f) : fieldBytes fields = fieldBytes fields' ↔ fields = fields' := by
  constructor
  · intro heq
    induction fields generalizing fields' with
    | nil =>
        cases fields' with
        | nil => rfl
        | cons f' fields' =>
            rw [fieldBytes_cons] at heq
            exact absurd heq.symm (List.append_ne_nil_of_right_ne_nil _ (List.cons_ne_nil _ _))
    | cons f fields ih =>
        cases fields' with
        | nil =>
            rw [fieldBytes_cons] at heq
            exact absurd heq (List.append_ne_nil_of_right_ne_nil _ (List.cons_ne_nil _ _))
        | cons f' fields' =>
            rw [List.forall_mem_cons] at h h'
            rw [fieldBytes_cons, fieldBytes_cons,
              append_zero_inj (Text.zero_notMem_utf8 h.1) (Text.zero_notMem_utf8 h'.1), Text.utf8_inj] at heq
            obtain ⟨rfl, hrest⟩ := heq
            rw [ih h.2 h'.2 hrest]
  · rintro rfl
    rfl

theorem digitChar_inj {a b : Nat} (ha : a < 16) (hb : b < 16) (h : Nat.digitChar a = Nat.digitChar b) : a = b := by
  have hall : ∀ a < 16, ∀ b < 16, Nat.digitChar a = Nat.digitChar b → a = b := by decide
  exact hall a ha b hb h

theorem mod_pow_eq_of_digits {x y base : Nat} {n : Nat}
    (h : ∀ i < n, x / base ^ i % base = y / base ^ i % base) : x % base ^ n = y % base ^ n := by
  induction n with
  | zero => rw [Nat.pow_zero, Nat.mod_one, Nat.mod_one]
  | succ n ih =>
      rw [Nat.mod_pow_succ, Nat.mod_pow_succ, ih fun i hi => h i (Nat.lt_succ_of_lt hi), h n n.lt_succ_self]

theorem hex_injective : Function.Injective hex := by
  intro x y h
  have hdigits := List.map_inj_left.1 (String.ofList_injective h)
  have hmod : x.toNat % 16 ^ 16 = y.toNat % 16 ^ 16 := mod_pow_eq_of_digits fun i hi =>
    digitChar_inj (Nat.mod_lt _ (by decide)) (Nat.mod_lt _ (by decide))
      (hdigits i (List.mem_reverse.2 (List.mem_range.2 hi)))
  have hx : x.toNat < 16 ^ 16 := x.toNat_lt
  have hy : y.toNat < 16 ^ 16 := y.toNat_lt
  rwa [Nat.mod_eq_of_lt hx, Nat.mod_eq_of_lt hy, UInt64.toNat_inj] at hmod

end Visibility.Digest
