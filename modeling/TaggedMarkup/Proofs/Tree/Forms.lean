import Mathlib.Logic.Relation
import TaggedMarkup.Proofs.Decoding.ReadBack
/-!
# Forms of elements

Markers are entries like any other, so an element could be taken for one of another form. `Form.Fits`
says what the entries of each form are. No entries fit two forms, and the form tells which kind
decoding sees.
-/
namespace TaggedMarkup

namespace Tree

/-! ## Trees inside others -/

/-- An entry or item. -/
inductive Part (t : Tree) : Tree → Prop
  | entry {entries : Entries Tree} {key : String} (h : (key, t) ∈ entries) : Part t (.map entries)
  | item {items : List Tree} (h : t ∈ items) : Part t (.list items)

/-- A tree stands somewhere inside another or is it. -/
def Within : Tree → Tree → Prop := Relation.ReflTransGen Part

/-- A tree stands somewhere inside another. -/
def Below : Tree → Tree → Prop := Relation.TransGen Part

theorem within_iff {t u : Tree} : Within t u ↔ t = u ∨ Below t u := by
  rw [Within, Below, Relation.reflTransGen_iff_eq_or_transGen, eq_comm]

theorem below_iff {t u : Tree} : Below t u ↔ ∃ part, Within t part ∧ Part part u :=
  Relation.TransGen.tail'_iff

/-- What holds everywhere inside a tree. -/
def Everywhere (P : Tree → Prop) (t : Tree) : Prop := ∀ u, Within u t → P u

variable {P : Tree → Prop}

theorem everywhere_text {text : String} (h : P (.text text)) : Everywhere P (.text text) := by
  intro u hu
  rcases within_iff.1 hu with rfl | hu
  · exact h
  · obtain ⟨part, -, hp⟩ := below_iff.1 hu
    cases hp

theorem forall_below_map {entries : Entries Tree} (h : ∀ a ∈ entries, Everywhere P a.2) :
    ∀ u, Below u (.map entries) → P u := by
  intro u hu
  obtain ⟨part, hwithin, hp⟩ := below_iff.1 hu
  cases hp with
  | entry hm => exact h _ hm u hwithin

theorem everywhere_map {entries : Entries Tree} (h : P (.map entries))
    (heach : ∀ a ∈ entries, Everywhere P a.2) : Everywhere P (.map entries) := by
  intro u hu
  rcases within_iff.1 hu with rfl | hu
  · exact h
  · exact forall_below_map heach u hu

theorem everywhere_list {items : List Tree} (h : P (.list items))
    (heach : ∀ t ∈ items, Everywhere P t) : Everywhere P (.list items) := by
  intro u hu
  rcases within_iff.1 hu with rfl | hu
  · exact h
  · obtain ⟨part, hwithin, hp⟩ := below_iff.1 hu
    cases hp with
    | item hm => exact heach _ hm u hwithin

/-! ## Forms -/

/-- The entries of an object, whose markers are texts and whose children have names. -/
structure IsObject (entries : Entries Tree) : Prop where
  distinct : entries.Distinct
  kind : Decoder.KindFree entries
  attributes : ∀ key t, (key, t) ∈ entries → Marker.isAttribute key = true → ∃ s, t = .text s
  data : ∀ key t, (key, t) ∈ entries → key = Marker.text ∨ key = Marker.verbatim →
    ∃ s, t = .text s
  oneText : Marker.verbatim ∈ entries.keys → Marker.text ∉ entries.keys
  variant : ∀ t, (Marker.variant, t) ∈ entries → ∃ case, t = .text case
  item : Marker.item ∉ entries.keys
  names : ∀ key t, (key, t) ∈ entries → Marker.isAttribute key = false → key ≠ Marker.text →
    key ≠ Marker.verbatim → key ≠ Marker.variant → isElementName key = true
  elements : ∀ key t, (key, t) ∈ entries → t.isList = false

/-- The forms of an element with entries. -/
inductive Form where
  /-- A kind is marked, and nothing beside it but what goes with the kind. -/
  | marked (kind : Kind)
  /-- Nothing but verbatim text. -/
  | verbatim
  | object

/-- The kind that an element of a form spells. -/
def Form.kind? : Form → Option Kind
  | marked kind => some kind
  | _ => none

/-- The entries that an element of a form has. -/
def Form.Fits : Form → Entries Tree → Prop
  | marked .null, entries => entries = [(Marker.kind, .text Kind.null.text)]
  | marked .array, entries =>
    entries = [(Marker.kind, .text Kind.array.text)] ∨
      ∃ items ≠ [], entries = [(Marker.kind, .text Kind.array.text), (Marker.item, .list items)]
  | marked .boolean, entries =>
    ∃ s, entries = [(Marker.kind, .text Kind.boolean.text), (Marker.text, .text s)]
  | marked .string, entries =>
    ∃ s, entries = [(Marker.kind, .text Kind.string.text), (Marker.text, .text s)]
  | verbatim, entries => ∃ s, entries = [(Marker.verbatim, .text s)]
  | object, entries => IsObject entries ∧ ∀ s, entries ≠ [(Marker.verbatim, .text s)]

theorem kind?_cons (kind : Kind) (rest : Entries Tree) :
    Tree.kind? (.map ((Marker.kind, .text kind.text) :: rest)) = some kind := by
  simp [kind?, kindMarker?, marker?, asEntries?, asText?, Entries.get?_cons, Kind.read?_text]

theorem kind?_of_kindFree {entries : Entries Tree} (h : Decoder.KindFree entries) :
    Tree.kind? (.map entries) = none := by
  unfold kind? kindMarker? marker?
  simp only [asEntries?, Option.bind_some]
  cases ht : Entries.get? entries Marker.kind with
  | none => rfl
  | some t =>
    obtain ⟨text, rfl, hread⟩ := h t (Entries.mem_of_get?_eq_some ht)
    simpa [asText?] using hread

/-- The kind that decoding sees is that of the form. -/
theorem Form.Fits.kind? {form : Form} {entries : Entries Tree} (h : form.Fits entries) :
    Tree.kind? (.map entries) = form.kind? := by
  match form with
  | .marked .null =>
    obtain rfl := h
    exact kind?_cons .null []
  | .marked .array =>
    rcases h with rfl | ⟨items, -, rfl⟩
    · exact kind?_cons .array []
    · exact kind?_cons .array _
  | .marked .boolean =>
    obtain ⟨s, rfl⟩ := h
    exact kind?_cons .boolean _
  | .marked .string =>
    obtain ⟨s, rfl⟩ := h
    exact kind?_cons .string _
  | .verbatim =>
    obtain ⟨s, rfl⟩ := h
    refine kind?_of_kindFree fun t ht => ?_
    exact absurd (Prod.mk.inj (List.mem_singleton.1 ht)).1 (by decide)
  | .object => exact kind?_of_kindFree h.1.kind

/-- Entries fit one form at most. -/
theorem Form.Fits.unique {form other : Form} {entries : Entries Tree} (h : form.Fits entries)
    (h' : other.Fits entries) : form = other := by
  have hkind : form.kind? = other.kind? := h.kind?.symm.trans h'.kind?
  cases form with
  | marked kind => cases other <;> cases hkind; rfl
  | verbatim =>
    cases other with
    | marked => cases hkind
    | verbatim => rfl
    | object =>
      obtain ⟨s, hs⟩ := h
      exact absurd hs (h'.2 s)
  | object =>
    cases other with
    | marked => cases hkind
    | verbatim =>
      obtain ⟨s, hs⟩ := h'
      exact absurd hs (h.2 s)
    | object => rfl

theorem IsObject.exists_form {entries : Entries Tree} (h : IsObject entries) :
    ∃ form : Form, form.Fits entries ∧ form.kind? = none := by
  by_cases hv : ∃ s, entries = [(Marker.verbatim, .text s)]
  · exact ⟨.verbatim, hv, rfl⟩
  · exact ⟨.object, ⟨h, not_exists.1 hv⟩, rfl⟩

theorem variantMarker?_of_not_mem {entries : Entries Tree} (h : Marker.variant ∉ entries.keys) :
    Tree.variantMarker? (.map entries) = none := by
  unfold variantMarker? marker?
  rw [asEntries?, Option.bind_some, Entries.get?_eq_none_iff.2 h]
  rfl

/-- Only objects can have a case. -/
theorem Form.Fits.variant_not_mem {form : Form} {entries : Entries Tree}
    (h : form.Fits entries) (hform : form ≠ .object) : Marker.variant ∉ entries.keys := by
  match form with
  | .marked .null =>
    obtain rfl := h
    decide
  | .marked .array =>
    rcases h with rfl | ⟨items, -, rfl⟩ <;> simp [Marker.variant, Marker.kind, Marker.item]
  | .marked .boolean | .marked .string =>
    obtain ⟨s, rfl⟩ := h
    simp [Marker.variant, Marker.kind, Marker.text]
  | .verbatim =>
    obtain ⟨s, rfl⟩ := h
    simp [Marker.variant, Marker.verbatim]
  | .object => exact absurd rfl hform

end Tree

end TaggedMarkup
