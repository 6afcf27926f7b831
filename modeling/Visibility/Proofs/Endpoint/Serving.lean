import Visibility.Proofs.Endpoint
import Visibility.Proofs.Endpoint.Document
import Visibility.Proofs.Label.Parser
import Visibility.Proofs.Text.Utf8
import Visibility.Scenario.Begin

namespace Visibility

open Rbac (ListError)

namespace Http

/-- A value that can be read: visible ASCII characters, blanks and tabs. -/
def Readable (value : List UInt8) : Prop := ∀ b ∈ value, (0x20 ≤ b ∧ b < 0x7f) ∨ b = 0x9

instance (value : List UInt8) : Decidable (Readable value) := List.decidableBAll _ _

/-- The values of all headers of a name, in order. -/
def Request.valuesOf (r : Request) (name : String) : List (List UInt8) := (r.headersOf name).map (·.value)

/-- The values under a name that can be read and are not empty, in order. -/
def Request.readable (r : Request) (name : String) : List (List UInt8) :=
  (r.valuesOf name).filter fun v => Readable v ∧ v ≠ []

theorem Readable.utf8_ofList {value : List UInt8} (h : Readable value) :
    Text.utf8 (String.ofList (value.map fun b => Char.ofNat b.toNat)) = value := by
  rw [Text.utf8_eq_flatMap, String.toList_ofList, List.flatMap_map]
  refine Eq.trans (List.flatMap_congr fun b hb => Text.utf8EncodeChar_ofNat ?_) (List.flatMap_singleton' _)
  obtain ⟨-, hlt⟩ | rfl := h b hb
  · exact UInt8.lt_trans hlt (by decide)
  · decide

theorem exists_utf8_eq {value : List UInt8} (h : Readable value) : ∃ t, Text.utf8 t = value :=
  ⟨_, h.utf8_ofList⟩

theorem Header.text?_eq_some_iff {h : Header} {t : String} :
    h.text? = some t ↔ Readable h.value ∧ Text.utf8 t = h.value := by
  have hall : (h.value.all fun b => (0x20 ≤ b && b < 0x7f) || b = 0x9) = true ↔ Readable h.value := by
    simp [Readable]
  rw [text?]
  split
  · rename_i hread
    rw [Option.some.injEq, and_iff_right (hall.1 hread), ← Text.utf8_inj, (hall.1 hread).utf8_ofList]
    exact eq_comm
  · rename_i hread
    exact ⟨nofun, fun hr => absurd (hall.2 hr.1) hread⟩

theorem Header.text?_eq_none {h : Header} (hread : ¬ Readable h.value) : h.text? = none := by
  rw [Option.eq_none_iff_forall_not_mem]
  exact fun t ht => hread (text?_eq_some_iff.1 ht).1

theorem Request.first_text_eq_some_iff {r : Request} {name t : String} :
    (r.headersOf name).head?.bind Header.text? = some t ↔
      (r.valuesOf name).head? = some (Text.utf8 t) ∧ Readable (Text.utf8 t) := by
  rw [valuesOf, List.head?_map, Option.bind_eq_some_iff, Option.map_eq_some_iff]
  simp only [Header.text?_eq_some_iff]
  constructor
  · rintro ⟨h, hh, hread, hvalue⟩
    rw [hvalue]
    exact ⟨⟨h, hh, rfl⟩, hread⟩
  · rintro ⟨⟨h, hh, hvalue⟩, hread⟩
    exact ⟨h, hh, hvalue ▸ hread, hvalue.symm⟩

theorem Request.map_utf8_texts (r : Request) (name : String) :
    (r.texts name).map Text.utf8 = r.readable name := by
  rw [texts, readable, valuesOf]
  induction r.headersOf name with
  | nil => rfl
  | cons h hs ih =>
      rw [List.map_cons]
      by_cases hread : Readable h.value
      · obtain ⟨t, ht⟩ := exists_utf8_eq hread
        rw [List.filterMap_cons_some (Header.text?_eq_some_iff.2 ⟨hread, ht⟩)]
        by_cases hempty : t.isEmpty = true
        · have hnil : h.value = [] := ht ▸ Text.isEmpty_iff_utf8.1 hempty
          rw [List.filter_cons_of_neg (by simp [hempty]), ih, List.filter_cons_of_neg (by simp [hnil])]
        · have hne : h.value ≠ [] := fun hnil => hempty (Text.isEmpty_iff_utf8.2 (ht.trans hnil))
          rw [List.filter_cons_of_pos (by simp [hempty]), List.map_cons, ih, ht,
            List.filter_cons_of_pos (by simp [hread, hne])]
      · rw [List.filterMap_cons_none (Header.text?_eq_none hread), ih,
          List.filter_cons_of_neg (by simp [hread])]

theorem Request.mem_texts_iff {r : Request} {name t : String} :
    t ∈ r.texts name ↔ Text.utf8 t ∈ r.readable name := by
  rw [← map_utf8_texts, List.mem_map]
  exact ⟨fun h => ⟨t, h, rfl⟩, fun ⟨t', h, ht⟩ => Text.utf8_inj.1 ht ▸ h⟩

end Http

namespace Endpoint

open Http (Header Readable Request Response)

/-- The first name that a request gives for its user can be read and is not empty. -/
def NamesUser (r : Request) : Prop :=
  ∃ v, (r.valuesOf userHeader).head? = some v ∧ Readable v ∧ v ≠ []

/-- The user that a request names: by its first name, and by all groups and scopes that can be read and are not
empty. -/
structure Identifies (r : Request) (u : User) : Prop where
  name : (r.valuesOf userHeader).head? = some (Text.utf8 u.name)
  readable : Readable (Text.utf8 u.name)
  nonempty : Text.utf8 u.name ≠ []
  groups : u.groups.map Text.utf8 = r.readable groupHeader
  scopes : u.scopes.map Text.utf8 = r.readable scopesHeader
  extra : u.extra = if u.scopes = [] then ∅ else (∅ : Table (List String)).insert User.scopesKey u.scopes

/-- The parameters of the query of a request. -/
def parameters (r : Request) : List (String × String) := r.uri.query.elim [] Http.Form.parse

/-- The selector that a request asks for: what its first parameter of that name says, and without one everything. -/
inductive Asks (r : Request) : Label.Selector → Prop where
  | everything (h : ∀ p ∈ parameters r, p.1 ≠ selectorParameter) : Asks r .everything
  | text {before after : List (String × String)} {text : String} {s : Label.Selector}
      (h : parameters r = before ++ (selectorParameter, text) :: after)
      (hbefore : ∀ p ∈ before, p.1 ≠ selectorParameter)
      (hs : (Text.Blank text.toList ∧ s = .everything) ∨
        ∃ rs, rs ≠ [] ∧ Label.Written rs text.toList ∧ s = .ofRequirements rs) : Asks r s

/-- What a request has to meet, in the order of the checks, each with the status for a request that does not. -/
def checks (ready : Bool) (r : Request) : List (Prop × Nat) :=
  [(r.uri.path = "/projects", 404),
    (r.method = "GET" ∨ r.method = "HEAD", 405),
    (ready = true, 503),
    (NamesUser r, 401),
    (∃ s, Asks r s, 400)]

/-- The status that belongs to the first condition that does not hold. -/
inductive FirstFailing : List (Prop × Nat) → Nat → Prop where
  | here {p : Prop} {status : Nat} {rest : List (Prop × Nat)} (h : ¬ p) : FirstFailing ((p, status) :: rest) status
  | later {p : Prop} {status status' : Nat} {rest : List (Prop × Nat)} (h : p) (hrest : FirstFailing rest status') :
      FirstFailing ((p, status) :: rest) status'

variable {ready : Bool} {r r' : Request} {u u' : User} {s : Label.Selector}

theorem Identifies.eq (h : Identifies r u) (h' : Identifies r u') : u' = u := by
  have hname : u'.name = u.name := Text.utf8_injective (Option.some.inj (h'.name.symm.trans h.name))
  have hgroups : u'.groups = u.groups :=
    List.map_injective_iff.2 Text.utf8_injective (h'.groups.trans h.groups.symm)
  have hscopes : u'.scopes = u.scopes :=
    List.map_injective_iff.2 Text.utf8_injective (h'.scopes.trans h.scopes.symm)
  have hextra : u'.extra = u.extra := by rw [h'.extra, h.extra, hscopes]
  cases u
  cases u'
  cases hname
  cases hgroups
  cases hextra
  rfl

theorem identifies_of_user? (h : user? r = some u) : Identifies r u := by
  have hscopes : u.scopes = r.texts scopesHeader := scopes_of_user? h
  rw [user?_eq] at h
  obtain ⟨name, hname, hu⟩ := Option.map_eq_some_iff.1 h
  obtain ⟨hfirst, hempty⟩ := Option.filter_eq_some_iff.1 hname
  obtain ⟨hvalue, hread⟩ := Request.first_text_eq_some_iff.1 hfirst
  have hne : Text.utf8 name ≠ [] := by
    intro hnil
    rw [Text.isEmpty_iff_utf8.2 hnil] at hempty
    cases hempty
  have hfields : u.name = name ∧ u.groups = r.texts groupHeader ∧
      u.extra = if u.scopes = [] then ∅ else (∅ : Table (List String)).insert User.scopesKey u.scopes := by
    rw [hscopes, ← hu]
    dsimp only
    split
    · rename_i hnone
      exact ⟨rfl, rfl, (if_pos (List.isEmpty_iff.1 hnone)).symm⟩
    · rename_i hsome
      exact ⟨rfl, rfl, (if_neg fun hnil => hsome (List.isEmpty_iff.2 hnil)).symm⟩
  exact {
    name := hfields.1 ▸ hvalue
    readable := hfields.1 ▸ hread
    nonempty := hfields.1 ▸ hne
    groups := hfields.2.1 ▸ r.map_utf8_texts groupHeader
    scopes := hscopes ▸ r.map_utf8_texts scopesHeader
    extra := hfields.2.2 }

theorem exists_user?_iff : (∃ u, user? r = some u) ↔ NamesUser r := by
  constructor
  · rintro ⟨u, hu⟩
    have h := identifies_of_user? hu
    exact ⟨_, h.name, h.readable, h.nonempty⟩
  · rintro ⟨v, hv, hread, hne⟩
    obtain ⟨name, rfl⟩ := Http.exists_utf8_eq hread
    have hempty : name.isEmpty = false := Bool.eq_false_iff.2 fun h => hne (Text.isEmpty_iff_utf8.1 h)
    rw [user?_eq, Request.first_text_eq_some_iff.2 ⟨hv, hread⟩, Option.filter_some, hempty]
    exact ⟨_, rfl⟩

theorem user?_eq_some_iff : user? r = some u ↔ Identifies r u := by
  refine ⟨identifies_of_user?, fun h => ?_⟩
  obtain ⟨u', hu'⟩ := exists_user?_iff.2 ⟨_, h.name, h.readable, h.nonempty⟩
  rw [hu', h.eq (identifies_of_user? hu')]

theorem selector_eq_ok_iff : selector r.uri.query = .ok s ↔ Asks r s := by
  rw [selector, ← parameters]
  have hne : ∀ p : String × String, (selectorParameter != p.1) = true ↔ p.1 ≠ selectorParameter :=
    fun p => bne_iff_ne.trans ne_comm
  constructor
  · intro h
    split at h
    · rename_i text htext
      obtain ⟨before, after, hparams, hbefore⟩ := List.lookup_eq_some_iff.1 htext
      exact .text hparams (fun p hp => (hne p).1 (hbefore p hp)) (Label.Selector.parse_eq_ok_iff.1 h)
    · rename_i hnone
      cases h
      exact .everything fun p hp => (hne p).1 (List.lookup_eq_none_iff.1 hnone p hp)
  · intro h
    cases h with
    | everything h =>
        have hnone : (parameters r).lookup selectorParameter = none :=
          List.lookup_eq_none_iff.2 fun p hp => (hne p).2 (h p hp)
        rw [hnone]
    | text h hbefore hs =>
        have hsome : (parameters r).lookup selectorParameter = some _ :=
          List.lookup_eq_some_iff.2 ⟨_, _, h, fun p hp => (hne p).2 (hbefore p hp)⟩
        rw [hsome]
        exact Label.Selector.parse_eq_ok_iff.2 hs

theorem groups_of_user? (h : user? r = some u) : u.groups = r.texts groupHeader :=
  List.map_injective_iff.2 Text.utf8_injective ((identifies_of_user? h).groups.trans (r.map_utf8_texts _).symm)

/-- A request passes every check, or it is refused for the first one that it fails. -/
theorem check_cases (ready : Bool) (r : Request) :
    (∃ u s, check ready r = .ok (u, s) ∧
      (r.uri.path = "/projects" ∧ (r.method = "GET" ∨ r.method = "HEAD") ∧ ready = true) ∧
        Identifies r u ∧ Asks r s) ∨
      ∃ refusal, check ready r = .error refusal ∧ FirstFailing (checks ready r) refusal.status := by
  rw [check]
  by_cases hpath : r.uri.path = "/projects"
  · rw [if_neg (not_not.2 hpath)]
    by_cases hmethod : r.method = "GET" ∨ r.method = "HEAD"
    · rw [if_neg fun h => not_or.2 h hmethod]
      cases ready with
      | false => exact .inr ⟨_, rfl, .later hpath (.later hmethod (.here Bool.false_ne_true))⟩
      | true =>
          cases hu : user? r with
          | none =>
              refine .inr ⟨_, rfl, .later hpath (.later hmethod (.later rfl (.here fun hnames => ?_)))⟩
              obtain ⟨u, hu'⟩ := exists_user?_iff.2 hnames
              cases hu.symm.trans hu'
          | some u =>
              have hnames : NamesUser r := exists_user?_iff.1 ⟨u, hu⟩
              cases hs : selector r.uri.query with
              | ok s =>
                  exact .inl ⟨u, s, rfl, ⟨hpath, hmethod, rfl⟩, user?_eq_some_iff.1 hu, selector_eq_ok_iff.1 hs⟩
              | error e =>
                  refine .inr ⟨_, rfl, .later hpath (.later hmethod (.later rfl (.later hnames (.here ?_))))⟩
                  rintro ⟨s, hasks⟩
                  cases hs.symm.trans (selector_eq_ok_iff.2 hasks)
    · exact .inr ⟨_, if_pos (not_or.1 hmethod), .later hpath (.here hmethod)⟩
  · exact .inr ⟨_, if_pos hpath, .here hpath⟩

theorem check_eq_ok_iff :
    check ready r = .ok (u, s) ↔
      (r.uri.path = "/projects" ∧ (r.method = "GET" ∨ r.method = "HEAD") ∧ ready = true) ∧
        Identifies r u ∧ Asks r s := by
  constructor
  · intro h
    obtain ⟨u', s', hok, hpassed⟩ | ⟨refusal, herror, -⟩ := check_cases ready r
    · cases hok.symm.trans h
      exact hpassed
    · cases herror.symm.trans h
  · rintro ⟨⟨hpath, hmethod, hready⟩, hu, hs⟩
    rw [check, if_neg (not_not.2 hpath), if_neg fun h => not_or.2 h hmethod, hready, user?_eq_some_iff.2 hu,
      selector_eq_ok_iff.2 hs]
    rfl

theorem firstFailing_of_check {refusal : Refusal} (h : check ready r = .error refusal) :
    FirstFailing (checks ready r) refusal.status := by
  obtain ⟨u, s, hok, -⟩ | ⟨refusal', herror, hfirst⟩ := check_cases ready r
  · cases hok.symm.trans h
  · cases herror.symm.trans h
    exact hfirst

theorem forall_checks_iff :
    (∀ c ∈ checks ready r, c.1) ↔
      (r.uri.path = "/projects" ∧ (r.method = "GET" ∨ r.method = "HEAD") ∧ ready = true) ∧
        NamesUser r ∧ ∃ s, Asks r s := by
  simp only [checks, List.forall_mem_cons, List.not_mem_nil, false_implies, implies_true, and_true, and_assoc]

/-- Serves a request, where listing namespaces may have effects. -/
def serveM {m : Type → Type} [Monad m] (ready : Bool)
    (list : User → Label.Selector → m (Except ListError (List Object))) (r : Request) : m Response :=
  match check ready r with
  | .error refusal => pure (send r.method (refuse refusal))
  | .ok (u, s) => do return send r.method (answer (← list u s))

/-- Lists namespaces, and takes note of it. -/
def logged (list : User → Label.Selector → Except ListError (List Object)) (u : User) (s : Label.Selector) :
    StateM (List (User × Label.Selector)) (Except ListError (List Object)) := do
  modify (· ++ [(u, s)])
  return list u s

/-- The response to a request, with the calls of `list` that it took. -/
def traced (ready : Bool) (list : User → Label.Selector → Except ListError (List Object)) (r : Request) :
    Response × List (User × Label.Selector) := (serveM ready (logged list) r).run []

variable {list : User → Label.Selector → Except ListError (List Object)}

theorem serve_eq_serveM : serve ready list r = @serveM Id _ ready list r := by
  rw [serve, serveM]
  cases check ready r <;> rfl

theorem traced_of_error {refusal : Refusal} (h : check ready r = .error refusal) :
    traced ready list r = (send r.method (refuse refusal), []) := by
  rw [traced, serveM, h]
  rfl

theorem traced_of_ok (h : check ready r = .ok (u, s)) :
    traced ready list r = (send r.method (answer (list u s)), [(u, s)]) := by
  rw [traced, serveM, h]
  rfl

theorem serve_eq_traced : serve ready list r = (traced ready list r).1 := by
  rw [serve]
  cases h : check ready r with
  | error refusal => rw [traced_of_error h]
  | ok c => rw [traced_of_ok h]

theorem mem_traced_iff {c : User × Label.Selector} : c ∈ (traced ready list r).2 ↔ check ready r = .ok c := by
  cases h : check ready r with
  | error refusal =>
      rw [traced_of_error h]
      exact ⟨nofun, nofun⟩
  | ok c' => rw [traced_of_ok h, List.mem_singleton, Except.ok.injEq, eq_comm]

theorem length_traced_le : (traced ready list r).2.length ≤ 1 := by
  cases h : check ready r with
  | error refusal =>
      rw [traced_of_error h]
      exact Nat.zero_le 1
  | ok c =>
      rw [traced_of_ok h]
      exact Nat.le_refl 1

theorem firstFailing_of_traced (h : (traced ready list r).2 = []) :
    FirstFailing (checks ready r) (serve ready list r).status := by
  cases hcheck : check ready r with
  | error refusal =>
      rw [serve_eq_traced, traced_of_error hcheck, status_send]
      exact firstFailing_of_check hcheck
  | ok c =>
      rw [traced_of_ok hcheck] at h
      cases h

theorem serve_of_mem_traced (h : (u, s) ∈ (traced ready list r).2) :
    serve ready list r = send r.method (answer (list u s)) := by
  rw [serve_eq_traced, traced_of_ok (mem_traced_iff.1 h)]

theorem traced_head :
    traced ready list { r with method := "HEAD" } =
      ({ (traced ready list { r with method := "GET" }).1 with body := none },
        (traced ready list { r with method := "GET" }).2) := by
  have hcheck : check ready { r with method := "HEAD" } = check ready { r with method := "GET" } := by
    rw [check, check]
    rfl
  cases h : check ready { r with method := "GET" } with
  | error refusal =>
      rw [traced_of_error h, traced_of_error (hcheck.trans h)]
      rfl
  | ok c =>
      rw [traced_of_ok h, traced_of_ok (hcheck.trans h)]
      rfl

end Endpoint

/-- The result of a listing, if it has one. -/
def Listing.result? (l : Listing) : Option (Except ListError (List Object)) :=
  match l.phase with
  | .done result => some result
  | _ => none

theorem Listing.result?_step {l : Listing} {result : Except ListError (List Object)} (h : l.result? = some result)
    (m : Moment) (c : Cache) : (l.step m c).result? = some result := by
  rw [result?] at h
  split at h
  · rename_i hphase
    rw [result?, step, hphase]
    exact h
  · cases h

/-- A way of listing that does not tell lists of the same groups apart. -/
def GroupsAsSet {α : Type} (list : User → Label.Selector → α) : Prop :=
  ∀ (u : User) (s : Label.Selector) (groups : List String),
    (∀ g, g ∈ groups ↔ g ∈ u.groups) → list { u with groups } s = list u s

theorem Cache.visibleNames_with_groups (c : Cache) (stores : Stores) (u : User) {groups : List String}
    (h : ∀ g, g ∈ groups ↔ g ∈ u.groups) :
    c.visibleNames stores { u with groups } = c.visibleNames stores u := by
  have hvisible : c.subjects.visible { u with groups } = c.subjects.visible u := by
    refine NameSet.ext_contains fun ns => ?_
    rw [Subjects.contains_visible, Subjects.contains_visible, Bool.eq_iff_iff]
    simp only [Bool.or_eq_true, List.any_eq_true, h]
  rw [visibleNames, visibleNames, hvisible]
  rfl

theorem Cache.groupsAsSet_list (c : Cache) (m : Moment) : GroupsAsSet (c.list m) := by
  intro u s groups h
  rw [list, list, c.visibleNames_with_groups _ _ h]

theorem Listing.through_one (ms : Nat → Moment) (cs : Nat → Cache) (u : User) (s : Label.Selector) :
    through ms cs u s 1 = ⟨s, .objects ((cs 0).visibleNames (ms 0).stores u) []⟩ := rfl

/-- A listing reads the groups in its first step and never again. -/
theorem Listing.groupsAsSet_through (ms : Nat → Moment) (cs : Nat → Cache) (n : Nat) :
    GroupsAsSet fun u s => (through ms cs u s n).result? := by
  intro u s groups h
  dsimp only
  cases n with
  | zero => rfl
  | succ n =>
      have hthrough : through ms cs { u with groups } s (n + 1) = through ms cs u s (n + 1) := by
        induction n with
        | zero => rw [through_one, through_one, (cs 0).visibleNames_with_groups _ _ h]
        | succ n ih => rw [through, ih, ← through]
      rw [hthrough]

namespace Endpoint

open Http (Request Response)

variable {ready : Bool} {r r' : Request}

/-- Requests that differ only in how often and in which order they name groups. -/
structure Regrouped (r r' : Request) : Prop where
  method : r'.method = r.method
  uri : r'.uri = r.uri
  others : (r'.without groupHeader).headers = (r.without groupHeader).headers
  groups : ∀ v, v ∈ r'.valuesOf groupHeader ↔ v ∈ r.valuesOf groupHeader

namespace Regrouped

theorem headersOf (h : Regrouped r r') {name : String}
    (hname : name.toList.map Char.toLower ≠ groupHeader.toList.map Char.toLower) :
    r'.headersOf name = r.headersOf name := by
  rw [← Request.headersOf_without hname, Request.headersOf, h.others, ← Request.headersOf,
    Request.headersOf_without hname]

theorem mem_texts_iff (h : Regrouped r r') (g : String) : g ∈ r'.texts groupHeader ↔ g ∈ r.texts groupHeader := by
  rw [Request.mem_texts_iff, Request.mem_texts_iff, Request.readable, Request.readable, List.mem_filter,
    List.mem_filter, h.groups]

theorem user?_eq (h : Regrouped r r') :
    user? r' = (user? r).map fun u => { u with groups := r'.texts groupHeader } := by
  have hname : r'.headersOf userHeader = r.headersOf userHeader := h.headersOf (by decide)
  have hscopes : r'.texts scopesHeader = r.texts scopesHeader := by
    rw [Request.texts, h.headersOf (by decide), Request.texts]
  rw [Endpoint.user?_eq, Endpoint.user?_eq, hname, hscopes, Option.map_map]
  congr 1
  funext name
  dsimp only [Function.comp_apply]
  split <;> rfl

theorem check_eq (h : Regrouped r r') :
    check ready r' = (check ready r).map fun c => ({ c.1 with groups := r'.texts groupHeader }, c.2) := by
  rw [check, check, h.uri, h.method, h.user?_eq]
  split
  · rfl
  · split
    · rfl
    · split
      · rfl
      · cases user? r with
        | none => rfl
        | some u => cases selector r.uri.query <;> rfl

theorem serveM_eq {m : Type → Type} [Monad m] (h : Regrouped r r')
    {list : User → Label.Selector → m (Except ListError (List Object))} (hlist : GroupsAsSet list) :
    serveM ready list r' = serveM ready list r := by
  rw [serveM, serveM, h.check_eq, h.method]
  cases hcheck : check ready r with
  | error refusal => rfl
  | ok c =>
      obtain ⟨u, s⟩ := c
      have hgroups : ∀ g, g ∈ r'.texts groupHeader ↔ g ∈ u.groups := fun g => by
        rw [h.mem_texts_iff, groups_of_user? (user?_of_check hcheck)]
      dsimp only [Except.map]
      rw [hlist u s _ hgroups]

end Regrouped

theorem answered?_eq_serveM (ready : Bool) (ms : Nat → Moment) (cs : Nat → Cache) (n : Nat) (r : Request) :
    answered? ready ms cs n r = serveM ready (fun u s => (Listing.through ms cs u s n).result?) r := by
  rw [answered?, serveM]
  cases check ready r with
  | error refusal => rfl
  | ok c =>
      dsimp only [Listing.result?]
      cases (Listing.through ms cs c.1 c.2 n).phase <;> rfl

end Endpoint

namespace Scenario.Begun

/-- What a move leaves of what was begun. A listing has nothing to do above it. -/
def move (w : World) : Begun → Begun
  | answer a => answer a
  | job j =>
      match (j.step w).2 with
      | .more j _ => job j
      | .finished a => answer a

/-- What some moves leave, each of which finds the world as it is by then. -/
def after (ws : Nat → World) (b : Begun) : Nat → Begun
  | 0 => b
  | n + 1 => (b.after ws n).move (ws n)

def answer? : Begun → Option Answer
  | answer a => some a
  | job _ => none

/-- What is left of a listing that answers a request. -/
def ofListing (method : String) (l : Listing) : Begun :=
  match l.result? with
  | some result => answer (.response (Endpoint.send method (Endpoint.answer result)))
  | none => job (.serve method l)

theorem after_answer (ws : Nat → World) (a : Answer) (n : Nat) : (answer a).after ws n = answer a := by
  induction n with
  | zero => rfl
  | succ n ih => rw [after, ih, move]

theorem move_serve (w : World) (method : String) (l : Listing) :
    (job (.serve method l)).move w = ofListing method (l.step w.moment w.service.cache) := by
  rw [move, Job.step, ofListing, Listing.result?]
  cases (l.step w.moment w.service.cache).phase <;> rfl

theorem after_serve (ws : Nat → World) (method : String) (u : User) (s : Label.Selector) (n : Nat) :
    (job (.serve method (.start u s))).after ws n =
      ofListing method (Listing.through (fun k => (ws k).moment) (fun k => (ws k).service.cache) u s n) := by
  induction n with
  | zero => rfl
  | succ n ih =>
      rw [after, ih, ofListing]
      cases h : (Listing.through (fun k => (ws k).moment) (fun k => (ws k).service.cache) u s n).result? with
      | none => exact move_serve _ _ _
      | some result => rw [Listing.through, ofListing, Listing.result?_step h]; rfl

theorem answer?_serve (w : World) (ws : Nat → World) (n : Nat) (r : Http.Request) :
    ((w.serve r).after ws n).answer? =
      (Endpoint.answered? w.service.cache.ready (fun k => (ws k).moment) (fun k => (ws k).service.cache) n r).map
        .response := by
  rw [World.serve, Endpoint.answered?_eq_serveM, Endpoint.serveM]
  cases Endpoint.check w.service.cache.ready r with
  | error refusal =>
      dsimp only
      rw [after_answer]
      rfl
  | ok c =>
      dsimp only
      rw [after_serve, ofListing]
      cases (Listing.through (fun k => (ws k).moment) (fun k => (ws k).service.cache) c.1 c.2 n).result? <;> rfl

end Scenario.Begun

namespace Endpoint

open Http (Header Request Response)
open Scenario (World)

/-- Namespaces are listed for a request at most once, for the user and the selector that it names, and only if
it passes every check; otherwise the first check that it fails gives the status. What is listed is the answer,
in its order. With `HEAD` a request is answered as with `GET`, but without a body. How often and in which order
it names groups does not matter, neither to a listing at one moment nor to one under which cache and stores
change. A world serves what this handler answers. -/
theorem serve_exact (ready : Bool) (list : User → Label.Selector → Except ListError (List Object)) (r : Request) :
    (traced ready list r).1 = serve ready list r ∧
    (traced ready list r).2.length ≤ 1 ∧
    (∀ u s, (u, s) ∈ (traced ready list r).2 ↔ (∀ c ∈ checks ready r, c.1) ∧ Identifies r u ∧ Asks r s) ∧
    ((traced ready list r).2 = [] → FirstFailing (checks ready r) (serve ready list r).status) ∧
    (∀ u s, (u, s) ∈ (traced ready list r).2 →
      (∀ os, list u s = .ok os →
        (serve ready list r).status = 200 ∧
          (r.method = "GET" → ∃ items, (serve ready list r).body = some (.object [
              ("apiVersion", .text "v1"), ("kind", .text "NamespaceList"),
              ("items", .array items), ("metadata", .object [])]) ∧
            items.map (·.at? ["metadata", "name"]) = os.map (·.name.map .text) ∧
            items.mapM namespace? = some os)) ∧
      ∀ e, list u s = .error e → (serve ready list r).status = 500) ∧
    traced ready list { r with method := "HEAD" } =
      ({ serve ready list { r with method := "GET" } with body := none },
        (traced ready list { r with method := "GET" }).2) ∧
    (∀ r', Regrouped r r' →
      (∀ (c : Cache) (m : Moment), serve ready (c.list m) r' = serve ready (c.list m) r) ∧
      ∀ ms cs n, answered? ready ms cs n r' = answered? ready ms cs n r) ∧
    ∀ (w : World) (ws : Nat → World) (n : Nat),
      ((w.serve r).after ws n).answer? =
        (answered? w.service.cache.ready (fun k => (ws k).moment) (fun k => (ws k).service.cache) n r).map
          .response := by
  refine ⟨serve_eq_traced.symm, length_traced_le, fun u s => ?_, firstFailing_of_traced, ?_, ?_, ?_, ?_⟩
  · rw [mem_traced_iff, check_eq_ok_iff, forall_checks_iff]
    constructor
    · rintro ⟨hadmitted, hu, hs⟩
      exact ⟨⟨hadmitted, exists_user?_iff.1 ⟨u, user?_eq_some_iff.2 hu⟩, s, hs⟩, hu, hs⟩
    · rintro ⟨⟨hadmitted, -⟩, hu, hs⟩
      exact ⟨hadmitted, hu, hs⟩
  · intro u s hcall
    rw [serve_of_mem_traced hcall, status_send]
    refine ⟨fun os hos => ?_, fun e he => ?_⟩
    · rw [hos]
      refine ⟨rfl, fun hget => ⟨os.map namespaceDocument, ?_, map_at?_name os, mapM_namespace? os⟩⟩
      rw [send, if_neg (by rw [hget]; decide)]
      rfl
    · rw [he]
      rfl
  · rw [traced_head, serve_eq_traced]
  · intro r' h
    refine ⟨fun c m => ?_, fun ms cs n => ?_⟩
    · rw [serve_eq_serveM, serve_eq_serveM, h.serveM_eq (c.groupsAsSet_list m)]
    · rw [answered?_eq_serveM, answered?_eq_serveM, h.serveM_eq (Listing.groupsAsSet_through ms cs n)]
  · exact fun w ws n => Scenario.Begun.answer?_serve w ws n r

/-- A request whose user has some groups. -/
def groupedRequest (groups : List (List UInt8)) : Request where
  method := "GET"
  uri := ⟨"/projects", some "labelSelector=%21a&labelSelector=)"⟩
  headers := ⟨"X-Remote-User", [0x75]⟩ :: groups.map (⟨"X-Remote-Group", ·⟩)

/-- A namespace with a status, which nobody looks at. -/
def activeNamespace : Object :=
  { name := some "n", details := { status := some (.object [("phase", .text "Active")]) } }

theorem serve_exact_sample :
    let r := groupedRequest [Text.utf8 "g", [0xc3, 0xa9], Text.utf8 "h", Text.utf8 "g"]
    let r' := groupedRequest [[0xc3, 0xa9], Text.utf8 "h", Text.utf8 "g"]
    let u : User := { name := "u", groups := ["g", "h", "g"] }
    let s := Label.Selector.ofRequirements [⟨"a", .absent, ∅⟩]
    let list := fun (_ : User) (_ : Label.Selector) => Except.ok [activeNamespace, { name := some "m" }]
    Identifies r u ∧ Asks r s ∧
      FirstFailing (checks false r) (serve false list r).status ∧
      (serve true list r).status = 200 ∧
      (∃ items, (serve true list r).body = some (.object [
          ("apiVersion", .text "v1"), ("kind", .text "NamespaceList"),
          ("items", .array items), ("metadata", .object [])]) ∧
        items.map (·.at? ["metadata", "name"]) = [some (.text "n"), some (.text "m")] ∧
        items.mapM namespace? = some [activeNamespace, { name := some "m" }]) ∧
      ∀ (c : Cache) (m : Moment), serve true (c.list m) r' = serve true (c.list m) r := by
  intro r r' u s list
  have h := serve_exact true list r
  have hcall : (u, s) ∈ (traced true list r).2 := by
    decide +kernel
  obtain ⟨-, hu, hs⟩ := (h.2.2.1 u s).1 hcall
  have hregrouped : Regrouped r r' := ⟨rfl, rfl, by decide +kernel, fun v => by
    have : r'.valuesOf groupHeader ⊆ r.valuesOf groupHeader ∧ r.valuesOf groupHeader ⊆ r'.valuesOf groupHeader := by
      decide +kernel
    exact ⟨fun hv => this.1 hv, fun hv => this.2 hv⟩⟩
  obtain ⟨hstatus, hbody⟩ := (h.2.2.2.2.1 u s hcall).1 _ rfl
  refine ⟨hu, hs, ?_, hstatus, hbody rfl, (h.2.2.2.2.2.2.1 r' hregrouped).1⟩
  exact (serve_exact false list r).2.2.2.1 (by decide +kernel)

end Endpoint

end Visibility
