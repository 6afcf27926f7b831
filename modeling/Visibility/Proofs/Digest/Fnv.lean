import Mathlib.Algebra.Ring.Int.Defs
import Mathlib.Data.List.Basic
import Visibility.Digest

/-!
What the hash cannot confuse.

The state of the hash after some bytes is told by its state before them, since the multiplication by an odd number
can be undone. So texts that differ in one place only are confused there or not at all; and three bytes are too few
for it, since the number that the hash multiplies by has its two ends 40 bits apart.
-/

namespace Visibility.Digest

theorem mul_prime_injective : Function.Injective (· * prime) := by
  have hinverse : prime * 0xce965057aff6957b = 1 := by decide
  intro x y h
  have hx : x * prime * 0xce965057aff6957b = y * prime * 0xce965057aff6957b := congrArg (· * 0xce965057aff6957b) h
  rwa [UInt64.mul_assoc, UInt64.mul_assoc, hinverse, UInt64.mul_one, UInt64.mul_one] at hx

theorem absorb_left_inj {h h' : UInt64} {b : UInt8} : absorb h b = absorb h' b ↔ h = h' := by
  rw [absorb, absorb, mul_prime_injective.eq_iff, UInt64.xor_left_inj]

theorem absorb_right_inj {h : UInt64} {b b' : UInt8} : absorb h b = absorb h b' ↔ b = b' := by
  rw [absorb, absorb, mul_prime_injective.eq_iff, UInt64.xor_right_inj, UInt8.toUInt64_inj]

theorem foldl_absorb_inj {bytes : List UInt8} {h h' : UInt64} :
    bytes.foldl absorb h = bytes.foldl absorb h' ↔ h = h' := by
  induction bytes generalizing h h' with
  | nil => exact Iff.rfl
  | cons b bytes ih => rw [List.foldl_cons, List.foldl_cons, ih, absorb_left_inj]

theorem exists_toNat_xor (h : UInt64) (b : UInt8) :
    ∃ r : Int, -255 ≤ r ∧ r ≤ 255 ∧ ((h ^^^ b.toUInt64).toNat : Int) = h.toNat + r := by
  have hb : b.toNat / 256 = 0 := Nat.div_eq_of_lt b.toNat_lt
  have hdiv : (h ^^^ b.toUInt64).toNat / 256 = h.toNat / 256 := by
    have hshift := Nat.shiftRight_xor_distrib (i := 8) (a := h.toNat) (b := b.toNat)
    rw [Nat.shiftRight_eq_div_pow, Nat.shiftRight_eq_div_pow, Nat.shiftRight_eq_div_pow] at hshift
    rw [UInt64.toNat_xor, UInt8.toNat_toUInt64, hshift, hb, Nat.xor_zero]
  exact ⟨(h ^^^ b.toUInt64).toNat - h.toNat, by omega, by omega, by omega⟩

theorem exists_toNat_sub_xor (h h' : UInt64) (b b' : UInt8) :
    ∃ e : Int, (-510 ≤ e ∧ e ≤ 510) ∧
      ((h ^^^ b.toUInt64).toNat : Int) - (h' ^^^ b'.toUInt64).toNat = h.toNat - h'.toNat + e := by
  obtain ⟨r, hr, hr', hx⟩ := exists_toNat_xor h b
  obtain ⟨s, hs, hs', hy⟩ := exists_toNat_xor h' b'
  exact ⟨r - s, by omega, by omega⟩

theorem exists_toNat_absorb (h : UInt64) (b : UInt8) :
    ∃ q : Int, ((absorb h b).toNat : Int) = (h ^^^ b.toUInt64).toNat * 1099511628211 - 2 ^ 64 * q := by
  have hprime : prime.toNat = 1099511628211 := rfl
  rw [absorb, UInt64.toNat_mul, hprime]
  exact ⟨((h ^^^ b.toUInt64).toNat * 1099511628211 / 2 ^ 64 : Nat), by omega⟩

theorem exists_toNat_sub_absorb (h h' : UInt64) (b b' : UInt8) :
    ∃ q : Int, ((absorb h b).toNat : Int) - (absorb h' b').toNat =
      ((h ^^^ b.toUInt64).toNat - (h' ^^^ b'.toUInt64).toNat) * 1099511628211 - 2 ^ 64 * q := by
  obtain ⟨q, hq⟩ := exists_toNat_absorb h b
  obtain ⟨p, hp⟩ := exists_toNat_absorb h' b'
  exact ⟨q - p, by omega⟩

/-- Small differences before two multiplications are not made up for by a small one after them. -/
theorem eq_zero_of_multiplied_twice {d e f k : Int} (hd : -510 ≤ d ∧ d ≤ 510) (he : -510 ≤ e ∧ e ≤ 510)
    (hf : -510 ≤ f ∧ f ≤ 510) (h : (d * 1099511628211 + e) * 1099511628211 + f = 2 ^ 64 * k) :
    d = 0 ∧ e = 0 := by
  -- The square of the prime is `2 ^ 80 + 870 * 2 ^ 40 + 189225`.
  have hparts : 2 ^ 40 * (870 * d + e) + (189225 * d + 435 * e + f) = 2 ^ 64 * (k - 2 ^ 16 * d) := by omega
  have hk : k - 2 ^ 16 * d = 0 := by omega
  rw [hk] at hparts
  have hhigh : 870 * d + e = 0 := by omega
  omega

theorem absorb_three_inj {h : UInt64} {a b c a' b' c' : UInt8}
    (heq : absorb (absorb (absorb h a) b) c = absorb (absorb (absorb h a') b') c') :
    a = a' ∧ b = b' ∧ c = c' := by
  have hlast : absorb (absorb h a) b ^^^ c.toUInt64 = absorb (absorb h a') b' ^^^ c'.toUInt64 :=
    mul_prime_injective heq
  obtain ⟨d, hd, hx⟩ := exists_toNat_sub_xor h h a a'
  obtain ⟨q, hx'⟩ := exists_toNat_sub_absorb h h a a'
  obtain ⟨e, he, hy⟩ := exists_toNat_sub_xor (absorb h a) (absorb h a') b b'
  obtain ⟨p, hy'⟩ := exists_toNat_sub_absorb (absorb h a) (absorb h a') b b'
  obtain ⟨f, hf, hz⟩ := exists_toNat_sub_xor (absorb (absorb h a) b) (absorb (absorb h a') b') c c'
  rw [hlast] at hz
  -- What the last byte adds must make up for the first two, modulo `2 ^ 64`.
  have hzero : d = 0 ∧ e = 0 :=
    eq_zero_of_multiplied_twice (k := q * 1099511628211 + p) hd he hf (by omega)
  have ha : a = a' := by
    rw [← UInt8.toUInt64_inj, ← UInt64.xor_right_inj h, ← UInt64.toNat_inj]
    omega
  subst ha
  have hb : b = b' := by
    rw [← UInt8.toUInt64_inj, ← UInt64.xor_right_inj (absorb h a), ← UInt64.toNat_inj]
    omega
  subst hb
  exact ⟨rfl, rfl, absorb_right_inj.1 heq⟩

theorem eq_of_foldl_absorb_eq {h : UInt64} {w w' : List UInt8} (hlength : w.length = w'.length)
    (hthree : w.length ≤ 3) (heq : w.foldl absorb h = w'.foldl absorb h) : w = w' := by
  have hpad : ∀ w : List UInt8, w.length ≤ 3 → (w ++ List.replicate (3 - w.length) 0).length = 3 := by
    intro w hw
    rw [List.length_append, List.length_replicate]
    omega
  obtain ⟨a, b, c, hw⟩ := List.length_eq_three.1 (hpad w hthree)
  obtain ⟨a', b', c', hw'⟩ := List.length_eq_three.1 (hpad w' (by omega))
  have hstates : [a, b, c].foldl absorb h = [a', b', c'].foldl absorb h := by
    rw [← hw, ← hw', List.foldl_append, List.foldl_append, heq, hlength]
  obtain ⟨rfl, rfl, rfl⟩ := absorb_three_inj hstates
  exact List.append_inj_left (hw.trans hw'.symm) hlength

/-- Strings of as many bytes that are the same outside of `n` bytes in a row. -/
structure DifferWithin (n : Nat) (x y : List UInt8) : Prop where
  length_eq : x.length = y.length
  exists_start : ∃ start, ∀ i, i < start ∨ start + n ≤ i → x[i]? = y[i]?

theorem DifferWithin.exists_parts {n : Nat} {x y : List UInt8} (h : DifferWithin n x y) :
    ∃ front w w' back, x = front ++ w ++ back ∧ y = front ++ w' ++ back ∧
      w.length = w'.length ∧ w.length ≤ n := by
  obtain ⟨hlength, start, hsame⟩ := h
  have hfront : x.take start = y.take start := by
    refine List.ext_getElem? fun i => ?_
    by_cases hi : i < start
    · rw [List.getElem?_take_of_lt hi, List.getElem?_take_of_lt hi, hsame i (.inl hi)]
    · rw [List.getElem?_take_eq_none (by omega), List.getElem?_take_eq_none (by omega)]
  have hback : x.drop (start + n) = y.drop (start + n) := by
    refine List.ext_getElem? fun i => ?_
    rw [List.getElem?_drop, List.getElem?_drop, hsame _ (.inr (Nat.le_add_right _ i))]
  have hparts : ∀ z : List UInt8, z = z.take start ++ (z.drop start).take n ++ z.drop (start + n) := by
    intro z
    rw [List.append_assoc, ← List.drop_drop, List.take_append_drop, List.take_append_drop]
  refine ⟨x.take start, (x.drop start).take n, (y.drop start).take n, x.drop (start + n), hparts x, ?_, ?_,
    List.length_take_le _ _⟩
  · rw [hfront, hback]
    exact hparts y
  · rw [List.length_take, List.length_take, List.length_drop, List.length_drop, hlength]

theorem fnv_inj_of_differWithin {x y : List UInt8} (h : DifferWithin 3 x y) (before after : List UInt8) :
    fnv (before ++ x ++ after) = fnv (before ++ y ++ after) ↔ x = y := by
  constructor
  · intro heq
    obtain ⟨front, w, w', back, rfl, rfl, hlength, hthree⟩ := h.exists_parts
    simp only [fnv, List.foldl_append, foldl_absorb_inj] at heq
    rw [eq_of_foldl_absorb_eq hlength hthree heq]
  · rintro rfl
    rfl

end Visibility.Digest
