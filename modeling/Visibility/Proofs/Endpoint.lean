import Visibility.Endpoint
import Visibility.Proofs.Cache.Answers
import Visibility.Proofs.Scope

namespace Visibility

open Rbac (ListError)

/-- A scope, by its text, permits all namespaces or one. -/
def Scope.Permits (roleExists : String → Bool) (ns scope : String) : Prop :=
  scope = "user:full" ∨ scope = "user:list-projects" ∨
    ∃ role, roleExists role = true ∧ (RoleScope role "*" scope ∨ RoleScope role ns scope)

theorem Scope.Grants.permits {roleExists : String → Bool} {ns scope : String}
    (h : Grants roleExists ns scope) : Permits roleExists ns scope := by
  obtain h | h | ⟨role, target, hrole, hexists, htarget⟩ := h
  · exact .inl h
  · exact .inr (.inl h)
  · rw [role?_eq_some_iff] at hrole
    refine .inr (.inr ⟨role, hexists, ?_⟩)
    obtain rfl | rfl := htarget
    · exact .inl hrole
    · exact .inr hrole

namespace Listing

/-- A listing after some steps, each of which finds the cache and its surroundings as they are by then. -/
def through (ms : Nat → Moment) (cs : Nat → Cache) (u : User) (selector : Label.Selector) : Nat → Listing
  | 0 => start u selector
  | n + 1 => (through ms cs u selector n).step (ms n) (cs n)

variable {ms : Nat → Moment} {cs : Nat → Cache} {u : User} {selector : Label.Selector} {names : List String}

/-- An object was stored under one of some names. -/
def Stored (ms : Nat → Moment) (names : List String) (o : Object) : Prop :=
  ∃ ns ∈ names, ∃ k, (ms k).stores.namespaces.get? ns = some o

/-- A listing that has some names has shown and will show nothing else. -/
def Phase.Within (ms : Nat → Moment) (names : List String) : Phase → Prop
  | Phase.names _ => False
  | objects left found => left ⊆ names ∧ ∀ o ∈ found, Stored ms names o
  | done (.ok found) => ∀ o ∈ found, Stored ms names o
  | done (.error _) => True

theorem Phase.Within.step {p : Phase} (h : p.Within ms names) (k : Nat) (c : Cache) :
    (p.step (ms k) c selector).Within ms names := by
  cases p with
  | names u => exact h.elim
  | objects left found =>
      cases left with
      | nil => exact h.2
      | cons ns left =>
          obtain ⟨hleft, hfound⟩ := h
          rw [Phase.step]
          cases hobject : (ms k).object ns with
          | error e => trivial
          | ok o =>
              refine ⟨fun _ hns => hleft (List.mem_cons_of_mem _ hns), fun o' ho' => ?_⟩
              obtain ho' | ho' := List.mem_append.1 ho'
              · exact hfound o' ho'
              · obtain ⟨hstored, -⟩ := Option.filter_eq_some_iff.1 (Option.mem_toList.1 ho')
                refine ⟨ns, hleft List.mem_cons_self, k, ?_⟩
                rw [← Moment.eq_get?_of_object hobject, hstored]
  | done result => exact h

theorem within_through (n : Nat) :
    (through ms cs u selector (n + 1)).phase.Within ms ((cs 0).visibleNames (ms 0).stores u) := by
  induction n with
  | zero => exact ⟨List.Subset.refl _, List.forall_mem_nil _⟩
  | succ n ih =>
      have hselector : ∀ n, (through ms cs u selector n).selector = selector := by
        intro n
        induction n with
        | zero => rfl
        | succ n ih => exact ih
      rw [through, step, hselector]
      exact ih.step (n + 1) (cs (n + 1))

theorem stored_of_done {n : Nat} {found : List Object}
    (h : (through ms cs u selector n).phase = .done (.ok found)) :
    ∀ o ∈ found, Stored ms ((cs 0).visibleNames (ms 0).stores u) o := by
  cases n with
  | zero => cases h
  | succ n =>
      have hwithin : (through ms cs u selector (n + 1)).phase.Within ms _ := within_through n
      rw [h] at hwithin
      exact hwithin

end Listing

theorem Cache.allow_of_mem_visibleNames {c : Cache} {stores : Stores} {u : User} {ns : String}
    (h : ns ∈ c.visibleNames stores u) : Scope.Allow stores.rbac.clusterRoleExists u.scopes ns :=
  (Scope.contains_visible_iff _ _).1 (List.mem_filter.1 h).2

/-- A request without the headers of a name. -/
def Http.Request.without (r : Http.Request) (name : String) : Http.Request :=
  { r with headers := r.headers.filter fun h => h.name.toList.map Char.toLower ≠ name.toList.map Char.toLower }

theorem Http.Request.headersOf_without {r : Http.Request} {name name' : String}
    (h : name'.toList.map Char.toLower ≠ name.toList.map Char.toLower) :
    (r.without name).headersOf name' = r.headersOf name' := by
  rw [headersOf, headersOf, without, List.filter_filter]
  refine List.filter_congr fun x _ => ?_
  rw [Bool.eq_iff_iff, Bool.and_eq_true, decide_eq_true_iff, decide_eq_true_iff]
  constructor
  · exact fun hx => hx.1
  · intro hx
    exact ⟨hx, fun hname => h (Eq.trans (Eq.symm hx) hname)⟩

theorem Http.Request.headersOf_without_self (r : Http.Request) (name : String) :
    (r.without name).headersOf name = [] := by
  rw [headersOf, without, List.filter_filter, List.filter_eq_nil_iff]
  intro x _
  simp

namespace Endpoint

open Http (Request Response)

/-- The response to a request after some steps of its listing, if it is there by then. -/
def answered? (ready : Bool) (ms : Nat → Moment) (cs : Nat → Cache) (n : Nat) (r : Request) :
    Option Response :=
  match check ready r with
  | .error refusal => some (send r.method (refuse refusal))
  | .ok (u, selector) =>
      match (Listing.through ms cs u selector n).phase with
      | .done result => some (send r.method (answer result))
      | _ => none

variable {ready : Bool} {ms : Nat → Moment} {cs : Nat → Cache} {n : Nat} {r : Request} {response : Response}

theorem user?_eq (r : Request) :
    user? r =
      (((r.headersOf userHeader).head?.bind Http.Header.text?).filter (!·.isEmpty)).map fun name =>
        let u : User := { name, groups := r.texts groupHeader }
        if (r.texts scopesHeader).isEmpty then u else u.withScopes (r.texts scopesHeader) := by
  have hname : user? r = ((r.headersOf userHeader).head?.bind Http.Header.text?).bind fun name => do
      if name.isEmpty then none
      let u : User := { name, groups := r.texts groupHeader }
      return if (r.texts scopesHeader).isEmpty then u else u.withScopes (r.texts scopesHeader) := by
    rw [user?, Option.bind_assoc]
    rfl
  rw [hname]
  cases (r.headersOf userHeader).head?.bind Http.Header.text? with
  | none => rfl
  | some name => by_cases h : name = "" <;> simp [h, Option.filter]

theorem scopes_of_user? {u : User} (h : user? r = some u) : u.scopes = r.texts scopesHeader := by
  rw [user?_eq] at h
  obtain ⟨name, -, rfl⟩ := Option.map_eq_some_iff.1 h
  dsimp only
  split
  · rename_i hempty
    rw [List.isEmpty_iff.1 hempty]
    rfl
  · exact User.scopes_withScopes _ _

theorem user?_of_check {u : User} {selector : Label.Selector} (h : check ready r = .ok (u, selector)) :
    user? r = some u := by
  rw [check] at h
  split at h
  · cases h
  · split at h
    · cases h
    · split at h
      · cases h
      · split at h
        · cases h
        · rename_i u' hu
          split at h
          · cases h
            exact hu
          · cases h

theorem check_without (h : r.texts scopesHeader = []) : check ready (r.without scopesHeader) = check ready r := by
  have hself : (r.without scopesHeader).texts scopesHeader = [] := by
    rw [Request.texts, Request.headersOf_without_self]
    rfl
  have huser : (r.without scopesHeader).headersOf userHeader = r.headersOf userHeader :=
    Request.headersOf_without (by decide)
  have hgroup : (r.without scopesHeader).texts groupHeader = r.texts groupHeader := by
    rw [Request.texts, Request.headersOf_without (by decide), Request.texts]
  have husers : user? (r.without scopesHeader) = user? r := by
    rw [user?_eq, user?_eq, huser, hgroup, hself, h]
  rw [check, check, husers]
  rfl

theorem status_send (method : String) (response : Response) : (send method response).status = response.status := by
  rw [send]
  split <;> rfl

theorem status_refuse_ne (refusal : Refusal) (method : String) : (send method (refuse refusal)).status ≠ 200 := by
  rw [status_send]
  cases refusal <;> exact nofun

/-- Whoever has a scope that can be read is shown only namespaces that one of its scopes permits, of the cluster
roles that there are when the listing begins. Whoever has none is answered as if it had no scopes at all, although
it may have some that cannot be read. -/
theorem scopes_restrict (hnamed : ∀ k, (ms k).stores.namespaces.Named)
    (h : answered? ready ms cs n r = some response) :
    (r.texts scopesHeader ≠ [] → response.status = 200 →
      ∃ os, response = send r.method (respond 200 (listDocument os)) ∧
        ∀ o ∈ os, ∃ ns, o.name = some ns ∧
          ∃ scope ∈ r.texts scopesHeader, Scope.Permits (ms 0).stores.rbac.clusterRoleExists ns scope) ∧
    (r.texts scopesHeader = [] → answered? ready ms cs n (r.without scopesHeader) = some response) := by
  constructor
  · intro hscopes hstatus
    rw [answered?] at h
    split at h
    · cases h
      exact absurd hstatus (status_refuse_ne _ _)
    · rename_i u selector hcheck
      split at h
      · rename_i result hdone
        cases h
        cases result with
        | error e => exact absurd hstatus (status_refuse_ne (.failed e) r.method)
        | ok os =>
            refine ⟨os, rfl, fun o ho => ?_⟩
            obtain ⟨ns, hns, k, hget⟩ := Listing.stored_of_done hdone o ho
            refine ⟨ns, hnamed k ns o hget, ?_⟩
            have hallow := Cache.allow_of_mem_visibleNames hns
            rw [scopes_of_user? (user?_of_check hcheck)] at hallow
            obtain hnone | ⟨scope, hscope, hgrants⟩ := hallow
            · exact absurd hnone hscopes
            · exact ⟨scope, hscope, hgrants.permits⟩
      · cases h
  · intro hscopes
    rw [answered?, check_without hscopes]
    exact h

/-- A request of a user with some scopes. -/
def sampleRequest (scopes : List (List UInt8)) : Request where
  method := "GET"
  uri := ⟨"/projects", none⟩
  headers := ⟨"X-Remote-User", [0x75]⟩ ::
    scopes.map (⟨"X-Remote-Extra-Scopes.authorization.openshift.io", ·⟩)

/-- The stores of the sample with a cluster role. -/
def sampleStores : Stores :=
  (System.sample.stores.apply (.apply (.rbac .clusterRole)
    { name := some "r", uid := some "y", resourceVersion := some "2" })).1

theorem sampleStores_named : sampleStores.namespaces.Named := by
  have h : System.Reachable System.anything System.sample :=
    System.reachable_sample (fun _ _ => trivial) (fun _ => trivial) fun _ => trivial
  exact Stores.named_apply h.named _

theorem sample_answered (r : Request) (u : User) (hcheck : check true r = .ok (u, .everything))
    (hnames : System.sample.cache.visibleNames sampleStores u = ["a"]) :
    answered? true (fun _ => System.sampleMoment sampleStores) (fun _ => System.sample.cache) 3 r =
      some (send r.method (respond 200 (listDocument [{ name := some "a" }]))) := by
  have hobject : (System.sampleMoment sampleStores).object "a" = .ok (some { name := some "a" }) := by
    decide +kernel
  rw [answered?, hcheck]
  simp only [Listing.through, Listing.step, Listing.start, Listing.Phase.step]
  rw [show (System.sampleMoment sampleStores).stores = sampleStores from rfl, hnames]
  simp only [hobject]
  rfl

theorem scopes_restrict_sample :
    ∃ response,
      answered? true (fun _ => System.sampleMoment sampleStores) (fun _ => System.sample.cache) 3
        (sampleRequest [Text.utf8 "role:r:a:!", [0xc3, 0xa9]]) = some response ∧
      ∃ os, response = send "GET" (respond 200 (listDocument os)) ∧
        ∀ o ∈ os, ∃ ns, o.name = some ns ∧
          ∃ scope ∈ ["role:r:a:!"], Scope.Permits sampleStores.rbac.clusterRoleExists ns scope := by
  have hanswered := sample_answered (sampleRequest [Text.utf8 "role:r:a:!", [0xc3, 0xa9]])
    (({ name := "u" } : User).withScopes ["role:r:a:!"]) (by decide +kernel) (by decide +kernel)
  have htexts : (sampleRequest [Text.utf8 "role:r:a:!", [0xc3, 0xa9]]).texts scopesHeader = ["role:r:a:!"] := by
    decide +kernel
  have h := (scopes_restrict (fun _ => sampleStores_named) hanswered).1
  rw [htexts] at h
  exact ⟨_, hanswered, h (List.cons_ne_nil _ _) rfl⟩

/-- A scope that cannot be read permits nothing by itself, and yet an answer shows a namespace to whoever has no
other. -/
theorem not_scopes_restrict_of_unreadable :
    ¬ ∀ (ready : Bool) (ms : Nat → Moment) (cs : Nat → Cache) (n : Nat) (r : Request) (response : Response),
      (∀ k, (ms k).stores.namespaces.Named) → answered? ready ms cs n r = some response →
      (∃ h ∈ r.headersOf scopesHeader, h.value ≠ []) → response.status = 200 →
      ∃ os, response = send r.method (respond 200 (listDocument os)) ∧
        ∀ o ∈ os, ∃ ns, o.name = some ns ∧
          ∃ h ∈ r.headersOf scopesHeader, ∃ scope, h.text? = some scope ∧
            Scope.Permits (ms 0).stores.rbac.clusterRoleExists ns scope := by
  intro h
  have hanswered := sample_answered (sampleRequest [[0xc3, 0xa9]]) { name := "u" } (by decide +kernel)
    (by decide +kernel)
  have hheaders : (sampleRequest [[0xc3, 0xa9]]).headersOf scopesHeader =
      [⟨"X-Remote-Extra-Scopes.authorization.openshift.io", [0xc3, 0xa9]⟩] := by decide +kernel
  obtain ⟨os, hos, hpermits⟩ := h true _ _ 3 _ _ (fun _ => sampleStores_named) hanswered
    (by rw [hheaders]; exact ⟨_, List.mem_cons_self, List.cons_ne_nil _ _⟩) rfl
  cases os with
  | nil => cases hos
  | cons o os =>
      obtain ⟨ns, -, header, hheader, scope, htext, -⟩ := hpermits o List.mem_cons_self
      rw [hheaders, List.mem_singleton] at hheader
      rw [hheader] at htext
      cases htext

end Endpoint

end Visibility
