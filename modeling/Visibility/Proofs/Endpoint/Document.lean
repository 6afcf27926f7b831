import Visibility.Endpoint

namespace Visibility

open Json (Value)

/-- The labels that a document shows, if they are texts in the order of their keys. -/
def Json.Value.labels? : Value → Option (Table String)
  | object members =>
      let entries := members.filterMap fun m => m.2.text?.map (m.1, ·)
      if h : entries.Pairwise fun a b => a.1 < b.1 then some ⟨entries, h⟩ else none
  | _ => none

namespace Endpoint

/-- The namespace that a document shows, each part of it at its place. -/
def namespace? (v : Value) : Option Object :=
  if v.at? ["apiVersion"] = some (.text "v1") ∧ v.at? ["kind"] = some (.text "Namespace") then
    some {
      name := (v.at? ["metadata", "name"]).bind Value.text?
      ns := (v.at? ["metadata", "namespace"]).bind Value.text?
      uid := (v.at? ["metadata", "uid"]).bind Value.text?
      resourceVersion := (v.at? ["metadata", "resourceVersion"]).bind Value.text?
      labels := (v.at? ["metadata", "labels"]).bind Value.labels?
      details := {
        annotations := v.at? ["metadata", "annotations"]
        creationTimestamp := v.at? ["metadata", "creationTimestamp"]
        deletionGracePeriodSeconds := v.at? ["metadata", "deletionGracePeriodSeconds"]
        deletionTimestamp := v.at? ["metadata", "deletionTimestamp"]
        finalizers := v.at? ["metadata", "finalizers"]
        generateName := v.at? ["metadata", "generateName"]
        generation := v.at? ["metadata", "generation"]
        managedFields := v.at? ["metadata", "managedFields"]
        ownerReferences := v.at? ["metadata", "ownerReferences"]
        selfLink := v.at? ["metadata", "selfLink"]
        spec := v.at? ["spec"]
        status := v.at? ["status"] } }
  else none

theorem bind_text? (o : Option String) : (o.map Value.text).bind Value.text? = o := by
  cases o <;> rfl

theorem labels?_labelsDocument (t : Table String) : (labelsDocument t).labels? = some t := by
  have hentries : (t.entries.map fun e => (e.1, Value.text e.2)).filterMap (fun m => m.2.text?.map (m.1, ·)) =
      t.entries := by
    rw [List.filterMap_map]
    exact List.filterMap_some
  rw [labelsDocument, Value.labels?]
  simp only [hentries, dif_pos t.sorted]

theorem bind_labels? (o : Option (Table String)) : (o.map labelsDocument).bind Value.labels? = o := by
  cases o with
  | none => rfl
  | some t => exact labels?_labelsDocument t

theorem at?_metadata (o : Object) (key : String) :
    (namespaceDocument o).at? ["metadata", key] = ((metadataMembers o).lookup key).join := by
  have hnodup : ((metadataMembers o).map (·.1)).Nodup := by simp [metadataMembers]
  rw [← Value.lookup_present hnodup]
  simp [namespaceDocument, document, Value.at?, Value.get?, List.lookup_cons]

theorem at?_rest (o : Object) {key : String} (h : key ∉ ["apiVersion", "kind", "metadata"]) :
    (namespaceDocument o).at? [key] =
      ([("spec", o.details.spec), ("status", o.details.status)].lookup key).join := by
  have hnodup : ([("spec", o.details.spec), ("status", o.details.status)].map (·.1)).Nodup := by simp
  have hne : ∀ k ∈ ["apiVersion", "kind", "metadata"], (key == k) = false := fun k hk =>
    beq_eq_false_iff_ne.2 fun heq => h (heq ▸ hk)
  rw [← Value.lookup_present hnodup]
  simp only [namespaceDocument, document, Value.at?, Value.get?, List.cons_append, List.nil_append, List.lookup_cons,
    hne "apiVersion" (by simp), hne "kind" (by simp), hne "metadata" (by simp)]
  exact Option.bind_fun_some _

/-- Nothing of a namespace is lost in its document. -/
theorem namespace?_namespaceDocument (o : Object) : namespace? (namespaceDocument o) = some o := by
  have hversion : (namespaceDocument o).at? ["apiVersion"] = some (.text "v1") := rfl
  have hkind : (namespaceDocument o).at? ["kind"] = some (.text "Namespace") := by
    simp [namespaceDocument, document, Value.at?, Value.get?, List.lookup_cons]
  have hspec : (namespaceDocument o).at? ["spec"] = o.details.spec := by
    rw [at?_rest o (by simp)]
    simp
  have hstatus : (namespaceDocument o).at? ["status"] = o.details.status := by
    rw [at?_rest o (by simp)]
    simp [List.lookup_cons]
  rw [namespace?, if_pos ⟨hversion, hkind⟩]
  simp [at?_metadata, hspec, hstatus, metadataMembers, List.lookup_cons, bind_text?, bind_labels?]

theorem map_at?_name (os : List Object) :
    (os.map namespaceDocument).map (·.at? ["metadata", "name"]) = os.map (·.name.map .text) := by
  rw [List.map_map]
  refine List.map_congr_left fun o _ => ?_
  rw [Function.comp_apply, at?_metadata]
  simp [metadataMembers, List.lookup_cons]

theorem mapM_namespace? (os : List Object) : (os.map namespaceDocument).mapM namespace? = some os := by
  induction os with
  | nil => rfl
  | cons o os ih => rw [List.map_cons, List.mapM_cons, namespace?_namespaceDocument, ih]; rfl

end Endpoint

end Visibility
