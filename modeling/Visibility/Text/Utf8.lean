namespace Visibility.Text

/-- What the first byte of a character says: the bytes that follow it, the bounds of the second
byte, and the bits it holds. -/
structure Lead where
  more : Nat
  low : UInt8
  high : UInt8
  bits : Nat
deriving DecidableEq

/-- The lead bytes of UTF-8; the bounds on the second byte leave out overlong forms, surrogates and
what lies above the last code point. -/
def Lead.ofByte? (b : UInt8) : Option Lead :=
  if b < 0x80 then some ⟨0, 0, 0, b.toNat⟩
  else if b < 0xc2 then none
  else if b < 0xe0 then some ⟨1, 0x80, 0xbf, b.toNat - 0xc0⟩
  else if b = 0xe0 then some ⟨2, 0xa0, 0xbf, 0⟩
  else if b = 0xed then some ⟨2, 0x80, 0x9f, 0xd⟩
  else if b < 0xf0 then some ⟨2, 0x80, 0xbf, b.toNat - 0xe0⟩
  else if b = 0xf0 then some ⟨3, 0x90, 0xbf, 0⟩
  else if b < 0xf4 then some ⟨3, 0x80, 0xbf, b.toNat - 0xf0⟩
  else if b = 0xf4 then some ⟨3, 0x80, 0x8f, 4⟩
  else none

/-- The character that stands for what is not UTF-8. -/
def replacement : Char := '\ufffd'

/-- Reads the rest of a character: the bits so far, the bytes still to come and the bounds of the
next one. -/
def decodeTail (bits : Nat) : Nat → UInt8 → UInt8 → List UInt8 → Char × List UInt8
  | 0, _, _, rest => (Char.ofNat bits, rest)
  | _ + 1, _, _, [] => (replacement, [])
  | n + 1, low, high, b :: rest =>
      if low ≤ b && b ≤ high then
        decodeTail (bits * 64 + (b.toNat - 0x80)) n 0x80 0xbf rest
      else (replacement, b :: rest)

theorem length_decodeTail_le (bits n : Nat) (low high : UInt8) (bs : List UInt8) :
    (decodeTail bits n low high bs).2.length ≤ bs.length := by
  induction n generalizing bits low high bs with
  | zero => simp [decodeTail]
  | succ n ih =>
      cases bs with
      | nil => simp [decodeTail]
      | cons b rest =>
          rw [decodeTail]
          split
          · exact Nat.le_trans (ih ..) (by simp)
          · simp

/-- Reads bytes as UTF-8 without failing: each longest start of a character that does not go on as
one becomes a replacement character. -/
def decodeLossy : List UInt8 → List Char
  | [] => []
  | b :: rest =>
      match Lead.ofByte? b with
      | none => replacement :: decodeLossy rest
      | some lead =>
          let next := decodeTail lead.bits lead.more lead.low lead.high rest
          next.1 :: decodeLossy next.2
termination_by bs => bs.length
decreasing_by
  · simp
  · exact Nat.lt_succ_of_le (length_decodeTail_le ..)

/-- The bytes of a text in UTF-8. -/
def utf8 (s : String) : List UInt8 := s.toUTF8.data.toList

end Visibility.Text
