/-!
Finite maps and finite sets of texts.

A table lists its entries in strictly increasing order of keys, so two tables with the same look-ups
are the same table. Texts compare by code point, which is also the order of their UTF-8 bytes.
-/

namespace Visibility

/-- A finite map from texts, as its entries in increasing order of keys. -/
@[ext] structure Table (α : Type) where
  entries : List (String × α)
  sorted : entries.Pairwise fun a b => a.1 < b.1
deriving DecidableEq

namespace Table

variable {α β : Type}

/-- Puts an entry at its place in a sorted list, instead of the one with its key. -/
def insertEntry (k : String) (v : α) : List (String × α) → List (String × α)
  | [] => [(k, v)]
  | e :: rest =>
      if k < e.1 then (k, v) :: e :: rest
      else if e.1 < k then e :: insertEntry k v rest
      else (k, v) :: rest

theorem mem_insertEntry {k : String} {v : α} {e : String × α} {l : List (String × α)}
    (h : e ∈ insertEntry k v l) : e = (k, v) ∨ e ∈ l := by
  induction l with
  | nil => simpa [insertEntry] using h
  | cons a rest ih =>
      rw [insertEntry] at h
      split at h
      · simpa using h
      · split at h
        · rcases List.mem_cons.1 h with rfl | h
          · exact .inr (by simp)
          · exact (ih h).imp_right (List.mem_cons_of_mem _)
        · rcases List.mem_cons.1 h with rfl | h
          · exact .inl rfl
          · exact .inr (List.mem_cons_of_mem _ h)

theorem eq_of_not_lt_of_not_lt {a b : String} (h : ¬a < b) (h' : ¬b < a) : a = b :=
  String.le_antisymm (String.not_lt.1 h') (String.not_lt.1 h)

theorem sorted_insertEntry {k : String} {v : α} {l : List (String × α)}
    (h : l.Pairwise fun a b => a.1 < b.1) :
    (insertEntry k v l).Pairwise fun a b => a.1 < b.1 := by
  induction l with
  | nil => simp [insertEntry]
  | cons a rest ih =>
      rw [List.pairwise_cons] at h
      rw [insertEntry]
      split
      · rename_i hk
        refine List.pairwise_cons.2 ⟨fun b hb => ?_, List.pairwise_cons.2 h⟩
        rcases List.mem_cons.1 hb with rfl | hb
        · exact hk
        · exact String.lt_trans hk (h.1 b hb)
      · split
        · rename_i hk
          refine List.pairwise_cons.2 ⟨fun b hb => ?_, ih h.2⟩
          rcases mem_insertEntry hb with rfl | hb
          · exact hk
          · exact h.1 b hb
        · rename_i h₁ h₂
          have hk : k = a.1 := eq_of_not_lt_of_not_lt h₁ h₂
          exact List.pairwise_cons.2 ⟨fun b hb => hk ▸ h.1 b hb, h.2⟩

protected def empty : Table α := ⟨[], .nil⟩

instance : EmptyCollection (Table α) := ⟨.empty⟩
instance : Inhabited (Table α) := ⟨.empty⟩

def insert (t : Table α) (k : String) (v : α) : Table α :=
  ⟨insertEntry k v t.entries, sorted_insertEntry t.sorted⟩

def erase (t : Table α) (k : String) : Table α :=
  ⟨t.entries.filter fun e => e.1 ≠ k, t.sorted.filter _⟩

def get? (t : Table α) (k : String) : Option α := t.entries.lookup k

def keys (t : Table α) : List String := t.entries.map (·.1)

/-- The values, in order of their keys. -/
def values (t : Table α) : List α := t.entries.map (·.2)

def size (t : Table α) : Nat := t.entries.length

def isEmpty (t : Table α) : Bool := t.entries.isEmpty

def contains (t : Table α) (k : String) : Bool := (t.get? k).isSome

instance : Membership String (Table α) := ⟨fun t k => t.contains k = true⟩

instance (k : String) (t : Table α) : Decidable (k ∈ t) :=
  inferInstanceAs (Decidable (t.contains k = true))

/-- The table of a list of entries; of two entries with one key the later counts. -/
def ofList (l : List (String × α)) : Table α := l.foldl (fun t e => t.insert e.1 e.2) ∅

/-- The entries that a rule keeps, with their new values. -/
def filterMap (f : String → α → Option β) (t : Table α) : Table β :=
  ⟨t.entries.filterMap fun e => (f e.1 e.2).map (e.1, ·), by
    rw [List.pairwise_filterMap]
    refine t.sorted.imp fun {a b} h x hx y hy => ?_
    obtain ⟨_, _, rfl⟩ := Option.map_eq_some_iff.1 hx
    obtain ⟨_, _, rfl⟩ := Option.map_eq_some_iff.1 hy
    exact h⟩

end Table

/-- A set of texts. -/
abbrev NameSet := Table Unit

namespace NameSet

def add (s : NameSet) (name : String) : NameSet := s.insert name ()

def remove (s : NameSet) (name : String) : NameSet := Table.erase s name

def toList (s : NameSet) : List String := s.keys

/-- The set of the members of a list. -/
def ofList (l : List String) : NameSet := l.foldl add ∅

def union (s t : NameSet) : NameSet := t.toList.foldl add s

end NameSet

end Visibility
