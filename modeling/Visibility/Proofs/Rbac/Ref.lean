import Mathlib.Data.List.Pairwise
import Visibility.Proofs.Digest.Fields
import Visibility.Proofs.Digest.Fnv
import Visibility.Rbac.Ref

namespace Visibility.Rbac

open Digest (NulFree fieldBytes fnv hex)

instance : Std.TransOrd Kind := inferInstanceAs (Std.TransCmp (compareOn Kind.rank))

instance : Std.LawfulEqOrd Kind where
  eq_of_compare {a b} h := by
    have hrank : a.rank = b.rank := Std.LawfulEqOrd.eq_of_compare (α := Nat) h
    cases a <;> cases b <;> simp_all [Kind.rank]

theorem Kind.name_inj {k k' : Kind} : k.name = k'.name ↔ k = k' := by
  constructor
  · intro h
    exact Option.some.inj (by rw [← ofName?_name k, h, ofName?_name])
  · rintro rfl
    rfl

theorem Kind.nulFree_name (k : Kind) : NulFree k.name := by cases k <;> decide

namespace Ref

instance : Std.TransOrd Ref :=
  inferInstanceAs (Std.TransCmp
    (compareLex (compareOn kind) (compareLex (compareOn uid) (compareOn resourceVersion))))

instance : Std.LawfulEqOrd Ref where
  eq_of_compare {a b} h := by
    obtain ⟨hkind, hrest⟩ := Ordering.then_eq_eq.1 h
    obtain ⟨huid, hversion⟩ := Ordering.then_eq_eq.1 hrest
    cases a
    cases b
    cases Std.LawfulEqOrd.eq_of_compare hkind
    cases Std.LawfulEqOrd.eq_of_compare huid
    cases Std.LawfulEqOrd.eq_of_compare hversion
    rfl

variable {refs refs' : List Ref}

theorem sort_perm (refs : List Ref) : (sort refs).Perm refs := List.mergeSort_perm _ _

theorem sort_eq_sort_iff : sort refs = sort refs' ↔ refs.Perm refs' := by
  constructor
  · intro h
    exact (sort_perm refs).symm.trans (h ▸ sort_perm refs')
  · intro h
    have htotal : ∀ a b : Ref, ((compare a b).isLE || (compare b a).isLE) = true := by
      intro a b
      rw [Std.OrientedOrd.eq_swap (a := b)]
      cases compare a b <;> rfl
    have hsorted : ∀ refs, (sort refs).Pairwise fun a b => (compare a b).isLE = true :=
      List.pairwise_mergeSort (fun _ _ _ => Std.TransCmp.isLE_trans) htotal
    refine List.Perm.eq_of_pairwise (fun a b _ _ hab hba => ?_) (hsorted refs) (hsorted refs')
      (((sort_perm refs).trans h).trans (sort_perm refs').symm)
    exact Std.LawfulEqOrd.eq_of_compare (Std.OrientedCmp.isLE_antisymm hab hba)

theorem sort_map {f : Ref → Ref} (hf : ∀ a ∈ refs, ∀ b ∈ refs, compare (f a) (f b) = compare a b) :
    sort (refs.map f) = (sort refs).map f :=
  (List.map_mergeSort fun a ha b hb => by rw [hf a ha b hb]).symm

/-- What a reference is of, in whatever version. -/
def object (r : Ref) : Kind × String := (r.kind, r.uid)

/-- No two references are of one object. -/
def Distinct (refs : List Ref) : Prop := refs.Pairwise fun a b => a.object ≠ b.object

instance (refs : List Ref) : Decidable (Distinct refs) :=
  inferInstanceAs (Decidable (refs.Pairwise fun a b => a.object ≠ b.object))

variable {before after : List Ref} {r r' : Ref}

theorem compare_eq_of_object {a a' b b' : Ref} (ha : a.object = a'.object) (hb : b.object = b'.object)
    (hne : a.object ≠ b.object) : compare a b = compare a' b' := by
  obtain ⟨hkind, huid⟩ := Prod.mk.inj ha
  obtain ⟨hkind', huid'⟩ := Prod.mk.inj hb
  change (compare a.kind b.kind).then ((compare a.uid b.uid).then _) =
    (compare a'.kind b'.kind).then ((compare a'.uid b'.uid).then _)
  rw [← hkind, ← huid, ← hkind', ← huid']
  cases hk : compare a.kind b.kind with
  | lt => rfl
  | gt => rfl
  | eq =>
      cases hu : compare a.uid b.uid with
      | lt => rfl
      | gt => rfl
      | eq =>
          exact absurd (Prod.ext (Std.LawfulEqOrd.eq_of_compare hk) (Std.LawfulEqOrd.eq_of_compare hu)) hne

/-- Puts another reference in the place of a reference. -/
def replace (r r' x : Ref) : Ref := if x = r then r' else x

theorem object_replace (h : r'.object = r.object) (x : Ref) : (replace r r' x).object = x.object := by
  rw [replace]
  split
  · rename_i hx
    rw [hx, h]
  · rfl

theorem Distinct.map_replace (h : Distinct (before ++ r :: after)) :
    (before ++ r :: after).map (replace r r') = before ++ r' :: after := by
  rw [Distinct, List.pairwise_append, List.pairwise_cons] at h
  obtain ⟨-, ⟨hafter, -⟩, hbefore⟩ := h
  have hkeep : ∀ refs : List Ref, (∀ x ∈ refs, x ≠ r) → refs.map (replace r r') = refs := fun refs hrefs =>
    (List.map_congr_left fun x hx => if_neg (hrefs x hx)).trans (List.map_id refs)
  rw [List.map_append, List.map_cons, replace, if_pos rfl, hkeep before, hkeep after]
  · rintro x hx rfl
    exact hafter x hx rfl
  · rintro x hx rfl
    exact hbefore x hx x List.mem_cons_self rfl

/-- The place of a reference in order is that of its object. -/
theorem Distinct.exists_sort_eq (h : Distinct (before ++ r :: after)) (hobject : r'.object = r.object) :
    ∃ front back, sort (before ++ r :: after) = front ++ r :: back ∧
      sort (before ++ r' :: after) = front ++ r' :: back := by
  have hperm := sort_perm (before ++ r :: after)
  obtain ⟨front, back, hsort⟩ := List.append_of_mem
    (hperm.mem_iff.2 (List.mem_append_right before (List.mem_cons_self (a := r) (l := after))))
  refine ⟨front, back, hsort, ?_⟩
  -- The new list is a map of the old one that the order does not see, so it commutes with sorting.
  have hcompare : ∀ a ∈ before ++ r :: after, ∀ b ∈ before ++ r :: after,
      compare (replace r r' a) (replace r r' b) = compare a b := by
    intro a ha b hb
    by_cases hab : a = b
    · rw [hab, Std.ReflOrd.compare_self, Std.ReflOrd.compare_self]
    · have hsymm : Std.Symm fun a b : Ref => a.object ≠ b.object := ⟨fun _ _ h => h.symm⟩
      have hne : a.object ≠ b.object := List.Pairwise.forall h ha hb hab
      refine compare_eq_of_object (object_replace hobject a) (object_replace hobject b) ?_
      rwa [object_replace hobject, object_replace hobject]
  have hdistinct : Distinct (front ++ r :: back) := by
    rw [← hsort]
    exact (hperm.pairwise_iff fun h => h.symm).2 h
  rw [← h.map_replace, sort_map hcompare, hsort, hdistinct.map_replace]

theorem digestBytes_split {front back : List Ref} (h : sort refs = front ++ r :: back) :
    digestBytes refs =
      fieldBytes (front.flatMap fields ++ [r.kind.name, r.uid]) ++ Text.utf8 r.resourceVersion ++
        0 :: fieldBytes (back.flatMap fields) := by
  have hfields : (front ++ r :: back).flatMap fields =
      front.flatMap fields ++ [r.kind.name, r.uid] ++ r.resourceVersion :: back.flatMap fields := by
    rw [List.flatMap_append, List.flatMap_cons, List.append_assoc]
    rfl
  rw [digestBytes, h, hfields, Digest.fieldBytes_append, Digest.fieldBytes_cons, List.append_assoc]

theorem fields_inj : fields r = fields r' ↔ r = r' := by
  cases r
  cases r'
  simp only [fields, List.cons.injEq, and_true, Kind.name_inj, Ref.mk.injEq]

theorem flatMap_fields_inj : refs.flatMap fields = refs'.flatMap fields ↔ refs = refs' := by
  constructor
  · intro h
    induction refs generalizing refs' with
    | nil =>
        cases refs' with
        | nil => rfl
        | cons r' refs' => cases h
    | cons r refs ih =>
        cases refs' with
        | nil => cases h
        | cons r' refs' =>
            rw [List.flatMap_cons, List.flatMap_cons] at h
            obtain ⟨hfields, hrest⟩ := List.append_inj h rfl
            rw [fields_inj.1 hfields, ih hrest]
  · rintro rfl
    rfl

theorem digest_eq_iff : digest refs = digest refs' ↔ fnv (digestBytes refs) = fnv (digestBytes refs') :=
  Digest.hex_injective.eq_iff

/-- References without the character that ends fields. -/
def AllNulFree (refs : List Ref) : Prop := ∀ r ∈ refs, NulFree r.uid ∧ NulFree r.resourceVersion

instance (refs : List Ref) : Decidable (AllNulFree refs) :=
  inferInstanceAs (Decidable (∀ r ∈ refs, NulFree r.uid ∧ NulFree r.resourceVersion))

theorem AllNulFree.fields (h : AllNulFree refs) : ∀ f ∈ (sort refs).flatMap fields, NulFree f := by
  intro f hf
  obtain ⟨r, hr, hf⟩ := List.mem_flatMap.1 hf
  obtain ⟨huid, hversion⟩ := h r ((sort_perm refs).mem_iff.1 hr)
  simp only [Ref.fields, List.mem_cons, List.not_mem_nil, or_false] at hf
  obtain rfl | rfl | rfl := hf
  · exact r.kind.nulFree_name
  · exact huid
  · exact hversion

theorem digestBytes_eq_iff (h : AllNulFree refs) (h' : AllNulFree refs') :
    digestBytes refs = digestBytes refs' ↔ refs.Perm refs' := by
  rw [digestBytes, digestBytes, Digest.fieldBytes_inj h.fields h'.fields, flatMap_fields_inj, sort_eq_sort_iff]

/-- Lists of the same references have the same digest, however they are ordered. Others, unless a text in them holds
the character zero, are hashed from other bytes, so that only a collision of the hash confuses them. -/
theorem digest_exact :
    (∀ refs refs' : List Ref, refs.Perm refs' → digest refs = digest refs') ∧
    ∀ refs refs' : List Ref, AllNulFree refs → AllNulFree refs' →
      (digestBytes refs = digestBytes refs' ↔ refs.Perm refs') ∧
      (digest refs = digest refs' → refs.Perm refs' ∨
        digestBytes refs ≠ digestBytes refs' ∧ fnv (digestBytes refs) = fnv (digestBytes refs')) := by
  refine ⟨fun refs refs' h => ?_, fun refs refs' h h' => ⟨digestBytes_eq_iff h h', fun hdigest => ?_⟩⟩
  · rw [digest, digest, digestBytes, digestBytes, sort_eq_sort_iff.2 h]
  · rw [← digestBytes_eq_iff h h']
    by_cases hbytes : digestBytes refs = digestBytes refs'
    · exact .inl hbytes
    · exact .inr ⟨hbytes, digest_eq_iff.1 hdigest⟩

def sample : List Ref := [⟨.role, "ab", "c"⟩, ⟨.clusterRole, "é", ""⟩, ⟨.role, "a", "bc"⟩]

theorem digest_exact_sample :
    digest sample = digest [⟨.role, "a", "bc"⟩, ⟨.role, "ab", "c"⟩, ⟨.clusterRole, "é", ""⟩] ∧
    AllNulFree sample ∧ AllNulFree (⟨.role, "ab", "c"⟩ :: sample) ∧
    digestBytes sample ≠ digestBytes (⟨.role, "ab", "c"⟩ :: sample) := by
  have hfree : AllNulFree sample := by decide +kernel
  have hfree' : AllNulFree (⟨.role, "ab", "c"⟩ :: sample) := by decide +kernel
  refine ⟨digest_exact.1 _ _ (by decide +kernel), hfree, hfree', fun h => ?_⟩
  exact absurd ((digest_exact.2 _ _ hfree hfree').1.1 h).length_eq (by decide)

/-- Among references of different objects, a version that changes within three bytes changes the digest. -/
theorem digest_ne_of_version {version : String} (hdistinct : Distinct (before ++ r :: after))
    (hversion : version ≠ r.resourceVersion)
    (hwindow : Digest.DifferWithin 3 (Text.utf8 r.resourceVersion) (Text.utf8 version)) :
    digest (before ++ { r with resourceVersion := version } :: after) ≠ digest (before ++ r :: after) := by
  have hobject : ({ r with resourceVersion := version } : Ref).object = r.object := rfl
  obtain ⟨front, back, hsort, hsort'⟩ := hdistinct.exists_sort_eq hobject
  intro h
  rw [digest_eq_iff, digestBytes_split hsort, digestBytes_split hsort', eq_comm] at h
  exact hversion (Text.utf8_inj.1 ((Digest.fnv_inj_of_differWithin hwindow _ _).1 h)).symm

theorem digest_ne_of_version_carry :
    Distinct ([⟨.role, "b", "1299"⟩] ++ ⟨.clusterRole, "b", "1299"⟩ :: [⟨.role, "a", "7"⟩]) ∧
    Digest.DifferWithin 3 (Text.utf8 "1299") (Text.utf8 "1300") ∧
    digest ([⟨.role, "b", "1299"⟩] ++ ⟨.clusterRole, "b", "1300"⟩ :: [⟨.role, "a", "7"⟩]) ≠
      digest ([⟨.role, "b", "1299"⟩] ++ ⟨.clusterRole, "b", "1299"⟩ :: [⟨.role, "a", "7"⟩]) := by
  have hdistinct : Distinct ([⟨.role, "b", "1299"⟩] ++ ⟨.clusterRole, "b", "1299"⟩ :: [⟨.role, "a", "7"⟩]) := by
    decide
  have hwindow : Digest.DifferWithin 3 (Text.utf8 "1299") (Text.utf8 "1300") := by
    refine ⟨rfl, 1, fun i hi => ?_⟩
    obtain hi | hi := hi
    · obtain rfl := Nat.lt_one_iff.1 hi
      rfl
    · rw [List.getElem?_eq_none hi, List.getElem?_eq_none hi]
  have h := digest_ne_of_version hdistinct (by decide) hwindow
  exact ⟨hdistinct, hwindow, h⟩

end Ref

end Visibility.Rbac
