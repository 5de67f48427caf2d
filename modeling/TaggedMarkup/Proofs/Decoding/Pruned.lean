import TaggedMarkup.Proofs.Decoding.Composed
import TaggedMarkup.Proofs.Profile
/-!
# Nothing empty is left

Fields and items that hold nothing are dropped where they are made, so what is decoded can be empty
as a whole and nowhere inside. The one exception is the payload of a case that its place does not let
through: the case says something even without fields. `Pruned` follows the elements of a tree, since
only they tell such a payload from an empty object under any other key.
-/
namespace TaggedMarkup

open Encoder Markup

namespace Decoder

variable {d : Decoder} {t : Tree} {hint : Option Schema}

/-- The items that an element lists and the schema that they are decoded under. -/
def listed? (d : Decoder) (t : Tree) (hint : Option Schema) : Option (List Tree × Option Schema) :=
  match t with
  | .text _ => none
  | .list items => some (items, (d.itemHint hint).or hint)
  | .map entries =>
    if t.kind? = some .array then
      some ((Entries.get? entries Marker.item).elim [] Tree.elements, d.itemHint hint)
    else none

mutual

/-- Nothing in the value of an element is empty but the payload of a case that its place does not let
through. -/
inductive Pruned (d : Decoder) : Tree → Option Schema → Value → Prop
  | leaf {t : Tree} {hint : Option Schema} {v : Value} (fields : v.fields = [])
      (items : v.asList?.getD [] = []) : Pruned d t hint v
  | list {t : Tree} {hint : Option Schema} {items : List Value} {elements kept : List Tree}
      {inner : Option Schema} (listed : d.listed? t hint = some (elements, inner))
      (sublist : kept.Sublist elements) (length : kept.length = items.length)
      (nonempty : ∀ v ∈ items, v.isEmptyContainer = false)
      (each : ∀ u v, (u, v) ∈ kept.zip items → Pruned d u inner v) : Pruned d t hint (.list items)
  | object {t : Tree} {hint : Option Schema} {fields : Entries Value}
      (nonempty : ∀ key v, (key, v) ∈ fields → v.isEmptyContainer = false)
      (each : ∀ key v, (key, v) ∈ fields → PrunedField d t hint key v) :
      Pruned d t hint (.object fields)
  | case {t : Tree} {hint : Option Schema} {case : String} {fields : Entries Value}
      (names : d.NamesCase t hint case)
      (nonempty : ∀ key v, (key, v) ∈ fields → v.isEmptyContainer = false)
      (each : ∀ key v, (key, v) ∈ fields → PrunedField d t hint key v) :
      Pruned d t hint (.object [(case, .object fields)])

/-- A text of the element, or the value of its entry under the key. -/
inductive PrunedField (d : Decoder) : Tree → Option Schema → String → Value → Prop
  | text {t : Tree} {hint : Option Schema} {key : String} (text : String) :
      PrunedField d t hint key (.string text)
  | entry {entries : Entries Tree} {hint : Option Schema} {key : String} {u : Tree} {v : Value}
      (mem : (key, u) ∈ entries)
      (pruned : Pruned d u ((declared? (d.fieldsType (.map entries) hint) key).map Field.schema) v) :
      PrunedField d (.map entries) hint key v

end

theorem pruned_natural (text : String) : Pruned d t hint (natural text) := by
  unfold natural
  split <;> exact .leaf rfl rfl

theorem pruned_bool (text : String) : Pruned d t hint (bool text) := by
  unfold bool
  cases canonicalBool? text <;> exact .leaf rfl rfl

theorem pruned_scalar (text : String) (schema : Option Schema) :
    Pruned d t hint (d.scalar text schema) := by
  unfold scalar
  split
  · exact .leaf rfl rfl
  · unfold literal
    split
    · exact .leaf rfl rfl
    · unfold number
      cases Number.canonical? text <;> exact .leaf rfl rfl
    · exact pruned_bool text
    all_goals first
      | exact pruned_natural text
      | split
        · exact .leaf rfl rfl
        · exact pruned_natural text

theorem isEmptyContainer_of_keeps (hd : d.keepEmpty = false) {v : Value} (h : d.keeps v = true) :
    v.isEmptyContainer = false := by
  simpa [keeps, hd] using h

theorem pruned_list (hd : d.keepEmpty = false) {elements : List Tree} {inner : Option Schema}
    (listed : d.listed? t hint = some (elements, inner))
    (each : ∀ u ∈ elements, Pruned d u inner (d.decode u inner)) :
    Pruned d t hint (.list ((elements.map fun u => d.decode u inner).filter d.keeps)) := by
  let kept := elements.filter fun u => d.keeps (d.decode u inner)
  have hsublist : kept.Sublist elements := List.filter_sublist
  have hkept : (elements.map fun u => d.decode u inner).filter d.keeps =
      kept.map fun u => d.decode u inner := List.filter_map
  have hvalues : List.Forall₂ (Pruned d · inner ·) kept
      ((elements.map fun u => d.decode u inner).filter d.keeps) := by
    rw [hkept, List.forall₂_map_right_iff]
    exact List.forall₂_same.2 fun u hu => each u (hsublist.subset hu)
  obtain ⟨length, hzip⟩ := List.forall₂_iff_zip.1 hvalues
  exact .list listed hsublist length
    (fun v hv => isEmptyContainer_of_keeps hd (List.mem_filter.1 hv).2) fun u v hm => hzip hm

/-- Whatever an element makes of its fields, the fields are pruned. -/
theorem Composed.pruned {fields : Entries Value} {v : Value} (h : Composed d t hint fields v)
    (nonempty : ∀ key v, (key, v) ∈ fields → v.isEmptyContainer = false)
    (each : ∀ key v, (key, v) ∈ fields → PrunedField d t hint key v) : Pruned d t hint v := by
  cases h with
  | plain => exact .object nonempty each
  | untyped case =>
    have hfield : ∀ key v, (key, v) ∈ Entries.extend [(Marker.untypedCase, .string case)] fields →
        v = .string case ∨ (key, v) ∈ fields := by
      intro key v hm
      rcases Entries.mem_extend hm with hm | hm
      · exact .inl (Prod.mk.inj (List.mem_singleton.1 hm)).2
      · exact .inr hm
    refine .object (fun key v hm => ?_) fun key v hm => ?_
    · rcases hfield key v hm with rfl | hm
      · rfl
      · exact nonempty key v hm
    · rcases hfield key v hm with rfl | hm
      · exact .text case
      · exact each key v hm
  | case names => exact .case names nonempty each

/-- Where nothing empty is kept, nothing empty is left. -/
theorem pruned_decode (hd : d.keepEmpty = false) (h : t.Keyed) (hint : Option Schema) :
    Pruned d t hint (d.decode t hint) := by
  revert hint
  refine Tree.Keyed.induction_elements h (fun t hint => ?_) (fun items ih hint => ?_)
    fun entries distinct ih ihitems hint => ?_
  · rw [decode]
    exact pruned_scalar t hint
  · rw [decode, decodeItems_eq]
    exact pruned_list hd rfl fun u hu => ih u hu _
  · cases hkind : Tree.kind? (.map entries) with
    | none =>
      obtain ⟨skipCase, hcomposed⟩ := exists_composed (d := d) hkind hint
      refine hcomposed.pruned (fun key v hm => ?_) fun key v hm => ?_
      · obtain ⟨t, ht, rfl, hkeeps⟩ := mem_decodeFields hm
        exact isEmptyContainer_of_keeps hd hkeeps
      · obtain ⟨t, ht, rfl, -⟩ := mem_decodeFields hm
        unfold fieldValue
        split
        · exact .text _
        · exact .entry ht (ih key t ht _)
    | some kind =>
      cases kind with
      | null =>
        rw [decode, hkind]
        exact .leaf rfl rfl
      | array =>
        have hlisted : d.listed? (.map entries) hint =
            some ((Entries.get? entries Marker.item).elim [] Tree.elements, d.itemHint hint) :=
          if_pos hkind
        rw [decode, hkind]
        simp only [decodeItem_eq]
        exact pruned_list hd hlisted fun u hu => ihitems u hu _
      | boolean =>
        rw [decode, hkind]
        exact pruned_bool _
      | string =>
        rw [decode, hkind]
        exact .leaf rfl rfl

/-- A root element that is no object stands under the key of its text. -/
theorem Pruned.decodeDocument {root : Tree} {schema : Schema}
    (h : d.Pruned root (some schema) (d.decode root (some schema)))
    (hlist : d.decode root (some schema) ≠ .list []) :
    d.Pruned root (some schema) (d.decodeDocument root schema) ∨
      ∃ v, d.decodeDocument root schema = .object [(Marker.text, v)] ∧
        v.isEmptyContainer = false ∧ d.Pruned root (some schema) v := by
  unfold Decoder.decodeDocument
  split
  · next fields heq => exact .inl (heq ▸ h)
  · exact .inl (.leaf rfl rfl)
  · next hobject _ =>
    refine .inr ⟨_, rfl, ?_, h⟩
    cases hv : d.decode root (some schema) with
    | object fields => exact absurd hv (hobject fields)
    | list items => exact List.isEmpty_eq_false_iff.2 fun hnil => hlist (hnil ▸ hv)
    | _ => rfl

end Decoder

namespace Profile

variable {p : Profile} {store : Store} {kind text : String} {d : Decoded}

/-- Unless it is told to, decoding keeps nothing empty inside a value but the payload of a case that
its place does not let through. Nothing is said of a root element that is an empty list. -/
theorem decode_pruned (hkeep : p.settings.keepEmpty = false)
    (h : p.decode store kind text = .ok d) :
    ∃ schema document root, p.registry.schemaFor? kind = some schema ∧
      p.readMarkup text = .ok document ∧ documentRoot document = .ok root ∧
      let decoder := p.decoder (p.convention.resolveAll store (root.candidates p.convention))
      d.value = decoder.decodeDocument root schema ∧
        (decoder.decode root (some schema) ≠ .list [] →
          decoder.Pruned root (some schema) d.value ∨
            ∃ v, d.value = .object [(Marker.text, v)] ∧ v.isEmptyContainer = false ∧
              decoder.Pruned root (some schema) v) := by
  obtain ⟨schema, document, root, hschema, -, hread, hroot, rfl⟩ := decode_eq_ok_iff.1 h
  have hkeyed : root.Keyed := (keyed_of_read hread).documentRoot hroot
  refine ⟨schema, document, root, hschema, readMarkup_eq_ok_iff.2 hread, hroot, rfl,
    fun hlist => ?_⟩
  have hpruned := Decoder.pruned_decode
    (d := p.decoder (p.convention.resolveAll store (root.candidates p.convention))) hkeep hkeyed
    (some schema)
  exact hpruned.decodeDocument hlist

/-- A definition with a case that keeps no field. -/
def bareText : String :=
  "<root><label><translationScriptId type=\"null\"/></label>" ++
    "<criteria><_T_>condition</_T_><children type=\"array\"/></criteria></root>"

theorem decode_pruned_bare : ({} : Profile).settings.keepEmpty = false ∧
    ∃ d root decoder, Profile.decode {} .empty "dataset" bareText = .ok d ∧
      d.value.fields.keys = ["criteria"] ∧
      Decoder.Pruned decoder root (some (.named "dataSet")) d.value := by
  have hcheck : ((Profile.decode {} .empty "dataset" bareText).toOption.any fun d =>
      d.value.fields.keys == ["criteria"]) = true := by
    decide +kernel
  simp only [Option.any_eq_true, beq_iff_eq] at hcheck
  obtain ⟨d, hd, hkeys⟩ := hcheck
  rw [← eq_ok_iff_toOption] at hd
  obtain ⟨schema, document, root, hschema, -, -, hvalue, hpruned⟩ := decode_pruned rfl hd
  obtain rfl : Schema.named "dataSet" = schema := by
    rw [show Analytics.registry.schemaFor? "dataset" = some (.named "dataSet") by decide] at hschema
    exact Option.some.inj hschema
  have htext : ∀ v, d.value ≠ .object [(Marker.text, v)] := by
    intro v heq
    rw [heq] at hkeys
    exact absurd (List.cons.inj hkeys).1 (show Marker.text ≠ "criteria" by decide)
  refine ⟨rfl, d, root, _, hd, hkeys, (hpruned fun hlist => ?_).resolve_right ?_⟩
  · refine htext (.list []) ?_
    rw [hvalue, Decoder.decodeDocument, hlist]
  · rintro ⟨v, heq, -⟩
    exact htext v heq

/-- A formula of a case that formulas do not have. -/
def strayText : String :=
  "<root><formulas type=\"array\"><_ITEM_><_T_>other</_T_></_ITEM_></formulas></root>"

/-- The variant of formulas is inline, yet a case that it does not declare keeps an empty payload. -/
theorem stray_payload_empty :
    ∃ d v, Profile.decode {} .empty "dataset" strayText = .ok d ∧
      ((Analytics.registry.objectOf? (.named "dataSet")).bind fun o =>
        (o.field? "formulas").map Field.schema) = some (.list (.named "formula")) ∧
      Analytics.registry.resolve (.named "formula") = .variant v ∧ v.isInline = true ∧
      (d.value.getPath? ["formulas", "0", "other"]) = some (.object []) := by
  have hcheck : ((Profile.decode {} .empty "dataset" strayText).toOption.any fun d =>
      (d.value.getPath? ["formulas", "0", "other"]).any fun v =>
        v.asObject?.any (·.isEmpty)) = true := by
    decide +kernel
  simp only [Option.any_eq_true, List.isEmpty_iff] at hcheck
  obtain ⟨d, hd, v, hv, fields, hfields, rfl⟩ := hcheck
  rw [← eq_ok_iff_toOption] at hd
  have hobject : v = .object [] := by
    cases v with
    | object es => rw [Option.some.inj hfields]
    | _ => cases hfields
  exact ⟨d, _, hd, by decide +kernel, rfl, rfl, hobject ▸ hv⟩

end Profile

end TaggedMarkup
