import Visibility.Cache.Listing
import Visibility.Proofs.Cache.Consistency
import Visibility.Proofs.Cache.LonePass

namespace Visibility

open Subjects (sees)

namespace Subjects

theorem contains_foldl_union (groups : List String) (g : Grants) (names : NameSet) (ns : String) :
    (groups.foldl (fun names k => names.union ((g.get? k).getD ∅)) names).contains ns =
      (names.contains ns || groups.any fun k => sees g k ns) := by
  induction groups generalizing names with
  | nil => simp
  | cons k groups ih => rw [List.foldl_cons, ih, NameSet.contains_union, List.any_cons, sees,
      Bool.or_assoc]

theorem contains_visible (s : Subjects) (u : User) (ns : String) :
    (s.visible u).contains ns = (sees s.users u.name ns || u.groups.any fun k => sees s.groups k ns) :=
  contains_foldl_union u.groups s.groups _ ns

end Subjects

/-- Whether a record names the user or one of its groups. -/
def Record.names (r : Record) (u : User) : Bool :=
  r.users.contains u.name || u.groups.any r.groups.contains

theorem Cache.Consistent.contains_visible {c : Cache} (h : c.Consistent) (u : User) (ns : String) :
    (c.subjects.visible u).contains ns = (c.records.get? ns).any (·.names u) := by
  rw [Subjects.contains_visible, Bool.eq_iff_iff, Bool.or_eq_true, h.users.sees_iff,
    List.any_eq_true]
  simp only [h.groups.sees_iff]
  cases c.records.get? ns with
  | none => simp
  | some r => simp [Record.names]

theorem Cache.visibleNames_of_scopes_eq_nil {c : Cache} {stores : Stores} {u : User}
    (hu : u.scopes = []) : c.visibleNames stores u = (c.subjects.visible u).toList := by
  rw [Cache.visibleNames, hu]
  exact List.filter_eq_self.2 fun _ _ => rfl

theorem Table.toList_eq_of_contains {α : Type} {t : Table α} {names : NameSet}
    {p : String → Bool} (h : ∀ k, names.contains k = (t.contains k && p k)) :
    names.toList = (t.entries.filter fun e => p e.1).map (·.1) := by
  have hnames : names = t.filterMap fun k _ => if p k = true then some () else none := by
    refine NameSet.ext_contains fun k => ?_
    rw [h, contains, contains, get?_filterMap]
    cases t.get? k with
    | none => rfl
    | some v => cases p k <;> simp
  rw [hnames, NameSet.toList, keys, filterMap]
  dsimp only
  induction t.entries with
  | nil => rfl
  | cons e rest ih => cases hp : p e.1 <;> simp_all

namespace Listing

/-- A step of a listing as one of a call, which leaves the cache alone and shows nothing. -/
def progress (m : Moment) (c : Cache) (l : Listing) : Progress Listing := ⟨c, l.step m c, none⟩

variable {stores : Stores} {good : Moment → Prop}

theorem ends_objects (hgood : ∀ m, good m → m.Faultless stores) (c : Cache)
    {left : List (String × Object)}
    (hleft : ∀ e ∈ left, stores.namespaces.get? e.1 = some e.2) (found : List Object)
    (es : List Effect) :
    Alone.Ends progress good (fun a => a.phase.phase = .done (.ok (found ++ left.map (·.2))))
      ⟨c, ⟨.everything, .objects (left.map (·.1)) found⟩, es⟩ := by
  induction left generalizing found with
  | nil =>
      exact .silent c ⟨.everything, .done (.ok found)⟩ (fun _ _ => rfl) (.now (by simp))
  | cons e left ih =>
      rw [List.forall_mem_cons] at hleft
      refine .silent c ⟨.everything, .objects (left.map (·.1)) (found ++ [e.2])⟩ (fun m hm => ?_)
        ((ih hleft.2 (found ++ [e.2])).mono fun a ha => ?_)
      · rw [progress, Listing.step, List.map_cons, Phase.step, (hgood m hm).object, hleft.1]
        rfl
      · rw [ha, List.append_assoc, List.map_cons, List.singleton_append]

/-- A listing of everything for a user without scopes, over a cache whose records are those of the live
namespaces. -/
theorem ends_start (hgood : ∀ m, good m → m.Faultless stores) {c : Cache} (hc : c.Consistent)
    (hlive : ∀ ns, c.records.contains ns = stores.live ns) {u : User} (hu : u.scopes = [])
    {p : String → Bool}
    (hp : ∀ ns r, c.records.get? ns = some r → r.names u = p ns) (es : List Effect) :
    Alone.Ends progress good (fun a => a.phase.phase = .done (.ok
        ((stores.namespaces.objects.entries.filter fun e => p e.1).map (·.2))))
      ⟨c, start u .everything, es⟩ := by
  have hvisible : (c.subjects.visible u).toList =
      (stores.namespaces.objects.entries.filter fun e => p e.1).map (·.1) := by
    refine Table.toList_eq_of_contains fun ns => ?_
    have hns : stores.namespaces.objects.contains ns = c.records.contains ns := (hlive ns).symm
    rw [hc.contains_visible, hns, Table.contains]
    cases hr : c.records.get? ns with
    | none => rfl
    | some r => simp [hp ns r hr]
  refine .silent c ⟨.everything, .objects ((stores.namespaces.objects.entries.filter
    fun e => p e.1).map (·.1)) []⟩ (fun m _ => ?_) ((ends_objects hgood c ?_ [] es).mono ?_)
  · rw [progress, Listing.step, start, Phase.step, Cache.visibleNames_of_scopes_eq_nil hu, hvisible]
  · intro e he
    exact Table.mem_entries_iff.1 (List.mem_filter.1 he).1
  · exact fun a ha => ha

end Listing

end Visibility
