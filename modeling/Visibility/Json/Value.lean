namespace Visibility.Json

/-- Documents in the form of JSON values. Their numbers are natural numbers, the only ones that are
written. -/
inductive Value where
  | null
  | bool (b : Bool)
  | number (n : Nat)
  | text (s : String)
  | array (items : List Value)
  | object (members : List (String × Value))

namespace Value

mutual

/-- Whether two values are written alike; the order of members counts. -/
def same : Value → Value → Bool
  | null, null => true
  | bool a, bool b => a = b
  | number m, number n => m = n
  | text s, text t => s = t
  | array as, array bs => sameItems as bs
  | object ms, object ns => sameMembers ms ns
  | _, _ => false

def sameItems : List Value → List Value → Bool
  | [], [] => true
  | a :: as, b :: bs => same a b && sameItems as bs
  | _, _ => false

def sameMembers : List (String × Value) → List (String × Value) → Bool
  | [], [] => true
  | (k, a) :: ms, (l, b) :: ns => k = l && same a b && sameMembers ms ns
  | _, _ => false

end

mutual

theorem same_iff : ∀ {a b : Value}, same a b = true ↔ a = b
  | null, b | bool x, b | number n, b | text s, b => by cases b <;> simp [same]
  | array as, b => by
      cases b with
      | array bs => rw [same, sameItems_iff, array.injEq]
      | _ => simp [same]
  | object ms, b => by
      cases b with
      | object ns => rw [same, sameMembers_iff, object.injEq]
      | _ => simp [same]

theorem sameItems_iff : ∀ {as bs : List Value}, sameItems as bs = true ↔ as = bs
  | [], bs => by cases bs <;> simp [sameItems]
  | a :: as, bs => by
      cases bs with
      | nil => simp [sameItems]
      | cons b bs => rw [sameItems, Bool.and_eq_true, same_iff, sameItems_iff, List.cons.injEq]

theorem sameMembers_iff : ∀ {ms ns : List (String × Value)}, sameMembers ms ns = true ↔ ms = ns
  | [], ns => by cases ns <;> simp [sameMembers]
  | (k, a) :: ms, ns => by
      cases ns with
      | nil => simp [sameMembers]
      | cons n ns =>
          obtain ⟨l, b⟩ := n
          rw [sameMembers, Bool.and_eq_true, Bool.and_eq_true, decide_eq_true_iff, same_iff, sameMembers_iff,
            List.cons.injEq, Prod.mk.injEq]

end

instance : DecidableEq Value := fun a b => decidable_of_iff (same a b = true) same_iff

/-- The members that are there, of those that an object can have. -/
def present (members : List (String × Option Value)) : List (String × Value) :=
  members.filterMap fun m => m.2.map (m.1, ·)

/-- The member of an object under a key, the first one if there are more. -/
def get? (key : String) : Value → Option Value
  | object members => members.lookup key
  | _ => none

/-- What is found along a path of keys. -/
def at? : List String → Value → Option Value
  | [], v => some v
  | key :: path, v => (v.get? key).bind (at? path)

/-- The text, of a value that is one. -/
def text? : Value → Option String
  | text s => some s
  | _ => none

theorem lookup_present {members : List (String × Option Value)} (h : (members.map (·.1)).Nodup) (key : String) :
    (present members).lookup key = (members.lookup key).join := by
  induction members with
  | nil => rfl
  | cons m members ih =>
      obtain ⟨k, v⟩ := m
      rw [List.map_cons, List.nodup_cons] at h
      have hrest : (present members).lookup key = (members.lookup key).join := ih h.2
      by_cases hkey : key = k
      · subst hkey
        have hnone : members.lookup key = none := by
          refine List.lookup_eq_none_iff.2 fun m hm => bne_iff_ne.2 ?_
          rintro rfl
          have hmem : m.1 ∈ members.map (·.1) := List.mem_map_of_mem hm
          exact h.1 hmem
        rw [hnone] at hrest
        rw [List.lookup_cons_self]
        cases v with
        | none => exact hrest
        | some v => exact List.lookup_cons_self
      · have hcons : ∀ {α : Type} (a : α) (l : List (String × α)), ((k, a) :: l).lookup key = l.lookup key := by
          intro α a l
          rw [List.lookup_cons, beq_eq_false_iff_ne.2 hkey]
        rw [hcons]
        cases v with
        | none => exact hrest
        | some v => exact (hcons v _).trans hrest

end Value

end Visibility.Json
