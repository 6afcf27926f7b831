namespace Visibility.Text

/-- The characters with the Unicode property `White_Space`. -/
def isBlank (c : Char) : Bool :=
  let n := c.toNat
  (0x9 ≤ n && n ≤ 0xd) || n = 0x20 || n = 0x85 || n = 0xa0 || n = 0x1680 ||
    (0x2000 ≤ n && n ≤ 0x200a) || n = 0x2028 || n = 0x2029 || n = 0x202f || n = 0x205f || n = 0x3000

def trimStart (s : List Char) : List Char := s.dropWhile isBlank

def trimEnd (s : List Char) : List Char := (s.reverse.dropWhile isBlank).reverse

/-- A text without the white space around it. -/
def trim (s : List Char) : List Char := trimEnd (trimStart s)

/-- Puts a character in front of the first part. -/
def consHead (c : Char) : List (List Char) → List (List Char)
  | [] => [[c]]
  | part :: parts => (c :: part) :: parts

/-- The parts before, between and after the occurrences of a character. -/
def splitAt (sep : Char) : List Char → List (List Char)
  | [] => [[]]
  | c :: rest => if c = sep then [] :: splitAt sep rest else consHead c (splitAt sep rest)

theorem splitAt_ne_nil (sep : Char) (s : List Char) : splitAt sep s ≠ [] := by
  cases s with
  | nil => simp [splitAt]
  | cons c rest =>
      rw [splitAt]
      split
      · simp
      · cases splitAt sep rest <;> simp [consHead]

/-- Nothing is lost: the parts with the character between them are the text. -/
theorem intercalate_splitAt (sep : Char) (s : List Char) :
    [sep].intercalate (splitAt sep s) = s := by
  induction s with
  | nil => rfl
  | cons c rest ih =>
      rw [splitAt]
      obtain ⟨part, parts, h⟩ := List.exists_cons_of_ne_nil (splitAt_ne_nil sep rest)
      rw [h] at ih ⊢
      split
      · rename_i hc
        rw [List.intercalate_cons_cons, ih, hc]
        rfl
      · cases parts with
        | nil => simpa [consHead] using ih
        | cons p ps =>
            rw [List.intercalate_cons_cons] at ih
            rw [consHead, List.intercalate_cons_cons, ← ih]
            rfl

end Visibility.Text
