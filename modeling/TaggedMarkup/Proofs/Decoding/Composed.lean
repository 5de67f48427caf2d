import TaggedMarkup.Proofs.Decoding.Tidy
import TaggedMarkup.Proofs.Markup.Keyed
/-!
# What decoded fields make

An element without a kind is decoded to an object of its fields, or to one with the case beside them
or around them. Nothing else is added, so what is decoded of a tree with distinct keys has distinct
keys.
-/
namespace TaggedMarkup.Decoder

open Markup

variable {d : Decoder} {entries : Entries Tree}

/-- The element names a case that its place does not let through: the place is a variant, and not an
inline one that declares the case. -/
def NamesCase (d : Decoder) (t : Tree) (hint : Option Schema) (case : String) : Prop :=
  t.kind? = none ∧ t.variantMarker? = some case ∧
    ∃ v, hint.map d.registry.resolve = some (.variant v) ∧ (v.isInline = true → v.case? case = none)

/-- The type that the fields of an element are decoded under. -/
def fieldsType (d : Decoder) (t : Tree) (hint : Option Schema) : Option ObjectType :=
  match t.variantMarker? with
  | none => d.objectHint hint
  | some case =>
    match hint.map d.registry.resolve with
    | some (.object o) => some o
    | some (.variant v) => (v.case? case).bind d.registry.objectOf?
    | _ => none

/-- The values that an element may make of its fields. -/
inductive Composed (d : Decoder) (t : Tree) (hint : Option Schema) (fields : Entries Value) :
    Value → Prop
  | plain : Composed d t hint fields (.object fields)
  | untyped (case : String) : Composed d t hint fields (untyped case fields)
  | case {case : String} (h : NamesCase d t hint case) :
      Composed d t hint fields (.object [(case, .object fields)])

/-- The case marker is one of the fields unless it has been taken. -/
theorem exists_composed (hk : Tree.kind? (.map entries) = none) (hint : Option Schema) :
    ∃ skipCase, Composed d (.map entries) hint
      (d.decodeFields skipCase entries (d.fieldsType (.map entries) hint))
      (d.decode (.map entries) hint) := by
  cases hcase : Tree.variantMarker? (.map entries) with
  | none =>
    simp only [decode, fieldsType, hk, hcase]
    exact ⟨false, .plain⟩
  | some case =>
    refine ⟨true, ?_⟩
    simp only [decode, fieldsType, hk, hcase]
    cases hresolved : hint.map d.registry.resolve with
    | none => exact .untyped case
    | some resolved =>
      cases resolved with
      | object o =>
        simp only
        split
        · exact .plain
        · exact .untyped case
      | variant v =>
        simp only
        cases hschema : v.case? case with
        | none => exact .case ⟨hk, hcase, v, hresolved, fun _ => hschema⟩
        | some schema =>
          simp only [Option.bind_some]
          split
          · exact .plain
          · next hinline => exact .case ⟨hk, hcase, v, hresolved, fun h => absurd h hinline⟩
      | _ => exact .untyped case

/-- The items of a list element are decoded from the elements that its item entry stands for. -/
theorem mem_decodeItem {hint : Option Schema} {v : Value} (h : v ∈ d.decodeItem entries hint) :
    ∃ t ∈ (Entries.get? entries Marker.item).elim [] Tree.elements, v = d.decode t hint ∧
      d.keeps v = true := by
  rw [decodeItem_eq] at h
  obtain ⟨hm, hkeeps⟩ := List.mem_filter.1 h
  obtain ⟨t, ht, rfl⟩ := List.mem_map.1 hm
  exact ⟨t, ht, rfl, hkeeps⟩

theorem mem_decodeItems {items : List Tree} {hint : Option Schema} {v : Value}
    (h : v ∈ d.decodeItems items hint) :
    ∃ t ∈ items, v = d.decode t hint ∧ d.keeps v = true := by
  rw [decodeItems_eq] at h
  obtain ⟨hm, hkeeps⟩ := List.mem_filter.1 h
  obtain ⟨t, ht, rfl⟩ := List.mem_map.1 hm
  exact ⟨t, ht, rfl, hkeeps⟩

namespace Composed

variable {t : Tree} {hint : Option Schema} {fields : Entries Value} {v : Value}

theorem keyed (h : Composed d t hint fields v) (hf : (Value.object fields).Keyed) : v.Keyed := by
  cases h with
  | plain => exact hf
  | untyped case =>
    have hcase : Entries.Distinct [(Marker.untypedCase, Value.string case)] :=
      List.nodup_singleton _
    refine .object (Entries.distinct_extend hcase _) fun key w hm => ?_
    rcases Entries.mem_extend hm with hm | hm
    · obtain ⟨-, rfl⟩ := Prod.mk.inj (List.mem_singleton.1 hm)
      exact .string case
    · exact hf.of_mem_fields hm
  | case _ =>
    refine .object (List.nodup_singleton _) fun key w hm => ?_
    obtain ⟨-, rfl⟩ := Prod.mk.inj (List.mem_singleton.1 hm)
    exact hf

end Composed

theorem keyed_decode {t : Tree} (h : t.Keyed) (hint : Option Schema) :
    (d.decode t hint).Keyed := by
  revert hint
  refine Tree.Keyed.induction_elements h (fun t hint => ?_) (fun items ih hint => ?_)
    fun entries distinct ih ihitems hint => ?_
  · rw [decode]
    exact (proper_scalar t hint).1
  · rw [decode]
    refine .list fun v hv => ?_
    obtain ⟨t, ht, rfl, -⟩ := mem_decodeItems hv
    exact ih t ht _
  · cases hkind : Tree.kind? (.map entries) with
    | none =>
      obtain ⟨skipCase, hcomposed⟩ := exists_composed (d := d) hkind hint
      refine hcomposed.keyed (.object (distinct_decodeFields distinct _ _) fun key v hm => ?_)
      obtain ⟨t, ht, rfl, -⟩ := mem_decodeFields hm
      unfold fieldValue
      split
      · exact .string _
      · exact ih key t ht _
    | some kind =>
      cases kind with
      | null =>
        rw [decode, hkind]
        exact proper_nil.1
      | array =>
        rw [decode, hkind]
        refine .list fun v hv => ?_
        obtain ⟨t, ht, rfl, -⟩ := mem_decodeItem hv
        exact ihitems t ht _
      | boolean =>
        rw [decode, hkind]
        exact (proper_bool _).1
      | string =>
        rw [decode, hkind]
        exact .string _

theorem keyed_decodeDocument {root : Tree} (h : root.Keyed) (schema : Schema) :
    (d.decodeDocument root schema).Keyed := by
  have hroot := keyed_decode (d := d) h (some schema)
  unfold decodeDocument
  split
  · next fields heq => exact heq ▸ hroot
  · exact proper_nil.1
  · refine .object (List.nodup_singleton _) fun key v hm => ?_
    obtain ⟨-, rfl⟩ := Prod.mk.inj (List.mem_singleton.1 hm)
    exact hroot

end TaggedMarkup.Decoder
