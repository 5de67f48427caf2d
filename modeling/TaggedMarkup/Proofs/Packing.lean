import TaggedMarkup.Proofs.Deployment
/-!
# What a packed definition depends on

The text of a definition is made of the fields that do not belong to the instance, and of the name
where the root type has one. Artifacts that agree on these are packed into the same text or refused
for the same reason, and each keeps its own name, script id and dependencies beside it.
-/
namespace TaggedMarkup

open Deployment

namespace Deployment

variable {p : Profile} {a b : Artifact} {text : String}

/-- The fields that the definition of an artifact is made of. -/
def definitionFields (a : Artifact) : Entries Value :=
  a.fields.filter fun f => f.1 ∉ ["scriptid", "name", "definition", "dependencies"] ∧
    ¬ (a.kind = "workbook" ∧ f.1 = "tables")

/-- An artifact has what is packed of another and nothing else: its name, script id and dependencies
as far as it has them, a text for its definition and, for a workbook, three summaries. -/
structure Packed (a : Artifact) (text : String) (b : Artifact) : Prop where
  id : b.id = a.id
  kind : b.kind = a.kind
  value : b.value = .object (
    (["name", "scriptid", "dependencies"].filterMap fun key =>
      (a.field? key).map fun v => (key, v)) ++
    ("definition", .string text) ::
    if a.kind = "workbook" then [
      ("pivots", summary a.fields "pivots" "pivot" "pivot"),
      ("charts", summary a.fields "charts" "chart" "chart"),
      ("tables", summary a.fields "dataViews" "dataView" "table")]
    else [])

theorem mem_instanceFields {kind key : String} : key ∈ instanceFields kind ↔
    key ∈ ["scriptid", "name", "definition", "dependencies"] ∨
      kind = "workbook" ∧ key = "tables" := by
  have hworkbook : Analytics.workbook = "workbook" := rfl
  simp only [instanceFields, keptFields, definition, name, hworkbook, List.cons_append,
    List.nil_append, List.mem_cons, List.not_mem_nil, or_false]
  split
  · next h => simp [h, or_left_comm, or_comm]
  · next h => simp [h, or_left_comm, or_comm]

theorem definitionFields_eq (a : Artifact) :
    definitionFields a = a.fields.filter fun f => f.1 ∉ instanceFields a.kind := by
  refine List.filter_congr fun f _ => ?_
  simp only [mem_instanceFields, not_or]

/-- A name is put at the end of a definition, for the other fields have none of that key. -/
theorem definitionBody_eq (p : Profile) (a : Artifact) : p.definitionBody a =
    definitionFields a ++ if p.declaresName a.kind then
      ((a.field? name).map fun v => (name, definitionName v)).toList else [] := by
  have hnew : name ∉ (definitionFields a).keys := by
    intro hm
    obtain ⟨v, hv⟩ := Entries.exists_of_mem_keys hm
    have hout := (List.mem_filter.1 hv).2
    simp [name] at hout
  have hfield : a.fields.get? name = a.field? name := rfl
  rw [Profile.definitionBody, ← definitionFields_eq, hfield]
  by_cases hdeclares : p.declaresName a.kind = true
  · rw [if_pos hdeclares]
    cases a.field? name with
    | none => exact (List.append_nil _).symm
    | some v => exact (if_pos hdeclares).trans (Entries.insert_of_not_mem hnew _)
  · rw [if_neg hdeclares, List.append_nil]
    cases a.field? name with
    | none => rfl
    | some v => exact if_neg hdeclares

theorem packedFields_eq (a : Artifact) (text : String) : packedFields a text =
    (keptFields.filterMap fun key => (a.fields.get? key).map fun v => (key, v)) ++
      (definition, .string text) :: summaries a.kind a.fields := by
  have hadded : ∀ key ∈ Entries.keys ((definition, .string text) :: summaries a.kind a.fields),
      key ∉ keptFields := by
    rw [Entries.keys_cons, keys_summaries]
    change ∀ key ∈ definition :: _, key ∉ keptFields
    split <;> decide
  exact Entries.extend_eq_append (distinct_added a.kind text a.fields) fun key hkey hkept =>
    hadded key hkey ((sublist_keys_kept a.fields keptFields).subset hkept)

theorem packed_packedFields (a : Artifact) (text : String) :
    Packed a text (a.withValue (.object (packedFields a text))) :=
  ⟨rfl, rfl, congrArg Value.object (packedFields_eq a text)⟩

end Deployment

namespace Profile

variable {p : Profile} {a b : Artifact}

theorem pack_of_supports (h : p.supports a.kind = true) : p.pack a =
    match p.encode a.kind (.object (p.definitionBody a)) with
    | .ok text => .ok (a.withValue (.object (packedFields a text)))
    | .error error => .error ⟨a.id, .encode error⟩ := by
  rw [pack, packFields, checkKind, if_pos h]
  cases p.encode a.kind (.object (p.definitionBody a)) <;> rfl

/-- Of the two kinds, only datasets have a name in their definitions. -/
theorem eq_dataset_of_declaresName {settings : Settings} {kind : String}
    (h : Profile.declaresName { settings := settings } kind = true) : kind = "dataset" := by
  have hdocuments : (Analytics.registry.documents.all fun d => d.1 == "dataset" ||
      !((Analytics.registry.objectOf? d.2).any fun o => (o.field? name).isSome)) = true := by
    decide +kernel
  obtain ⟨o, ho, hname⟩ := (Option.any_eq_true _ _).1 h
  obtain ⟨schema, hschema, ho⟩ := Option.bind_eq_some_iff.1 ho
  have hkind := List.all_eq_true.1 hdocuments _ (Entries.mem_of_get?_eq_some hschema)
  simpa [ho, hname] using hkind

/-- Artifacts of one kind that agree on the fields of their definitions, and datasets on their names
too, have the same definition when packed, or are refused for the same reason. -/
theorem pack_congr (settings : Settings) {a b : Artifact} (hkind : a.kind = b.kind)
    (hsupports : Profile.supports { settings := settings } a.kind = true)
    (hfields : definitionFields a = definitionFields b)
    (hname : a.kind = "dataset" → a.field? "name" = b.field? "name") :
    (∃ error, Profile.pack { settings := settings } a = .error ⟨a.id, .encode error⟩ ∧
      Profile.pack { settings := settings } b = .error ⟨b.id, .encode error⟩) ∨
    ∃ text a' b', Profile.pack { settings := settings } a = .ok a' ∧ Packed a text a' ∧
      Profile.pack { settings := settings } b = .ok b' ∧ Packed b text b' := by
  have hbody : Profile.definitionBody { settings := settings } a =
      Profile.definitionBody { settings := settings } b := by
    rw [definitionBody_eq, definitionBody_eq, hfields, ← hkind]
    split
    · next h => rw [show a.field? name = b.field? name from hname (eq_dataset_of_declaresName h)]
    · rfl
  rw [pack_of_supports hsupports, pack_of_supports (hkind ▸ hsupports), ← hbody, ← hkind]
  cases Profile.encode { settings := settings } a.kind
      (.object (Profile.definitionBody { settings := settings } a)) with
  | error error => exact .inl ⟨error, rfl, rfl⟩
  | ok text =>
    exact .inr ⟨text, _, _, rfl, packed_packedFields a text, rfl, packed_packedFields b text⟩

/-- A workbook with one pivot. -/
def book : Artifact :=
  ⟨⟨["a"]⟩, "workbook", .object [("scriptid", .string "custworkbook1"), ("name", .string "Book"),
    ("pivots", .list [.object [("pivot", .object [("scriptId", .string "p")])]])]⟩

/-- The same definition in a workbook that has all else different. -/
def otherBook : Artifact :=
  ⟨⟨["b"]⟩, "workbook", .object [("tables", .object []), ("name", .string "Other"),
    ("definition", .string "<root/>"),
    ("pivots", .list [.object [("pivot", .object [("scriptId", .string "p")])]]),
    ("dependencies", .list [.string "x"])]⟩

/-- A dataset, and the same definition under the same name with a script id. -/
def draft : Artifact :=
  ⟨⟨["a"]⟩, "dataset", .object [("name", .string "Sales"), ("version", .string "0.1")]⟩

def release : Artifact :=
  ⟨⟨["b"]⟩, "dataset", .object [("scriptid", .string "custdataset1"), ("version", .string "0.1"),
    ("name", .string "Sales")]⟩

theorem pack_congr_books_and_releases :
    (definitionFields book = definitionFields otherBook ∧
      ∃ text a b, Profile.pack {} book = .ok a ∧ Profile.pack {} otherBook = .ok b ∧
        a.field? "definition" = some (.string text) ∧ b.field? "definition" = some (.string text) ∧
        a.field? "name" = some (.string "Book") ∧ b.field? "name" = some (.string "Other") ∧
        a.field? "dependencies" = none ∧ b.field? "dependencies" = some (.list [.string "x"])) ∧
    definitionFields draft = definitionFields release ∧
      ∃ text a b, Profile.pack {} draft = .ok a ∧ Profile.pack {} release = .ok b ∧
        a.field? "definition" = some (.string text) ∧ b.field? "definition" = some (.string text) ∧
        a.field? "scriptid" = none ∧ b.field? "scriptid" = some (.string "custdataset1") := by
  have hsucceeds : (Profile.pack {} book).toOption.isSome = true ∧
      (Profile.pack {} draft).toOption.isSome = true := by
    decide +kernel
  have hworkbook : book.kind = otherBook.kind := rfl
  have hdataset : draft.kind = release.kind := rfl
  have hbooks : definitionFields book = definitionFields otherBook := rfl
  have hdrafts : definitionFields draft = definitionFields release := rfl
  constructor
  · rcases pack_congr {} hworkbook (by decide) hbooks fun h => absurd h (by decide) with
      ⟨error, herror, -⟩ | ⟨text, a, b, ha, hpacked, hb, hother⟩
    · rw [herror] at hsucceeds
      cases hsucceeds.1
    · refine ⟨hbooks, text, a, b, ha, hb, ?_⟩
      simp only [Artifact.field?, Value.get?, hpacked.value, hother.value]
      exact ⟨rfl, rfl, rfl, rfl, rfl, rfl⟩
  · rcases pack_congr {} hdataset (by decide) hdrafts fun _ => rfl with
      ⟨error, herror, -⟩ | ⟨text, a, b, ha, hpacked, hb, hother⟩
    · rw [herror] at hsucceeds
      cases hsucceeds.2
    · refine ⟨hdrafts, text, a, b, ha, hb, ?_⟩
      simp only [Artifact.field?, Value.get?, hpacked.value, hother.value]
      exact ⟨rfl, rfl, rfl, rfl⟩

end Profile

end TaggedMarkup
