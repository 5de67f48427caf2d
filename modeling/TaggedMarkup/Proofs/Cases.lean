import TaggedMarkup.Proofs.Cycle.Objects
import TaggedMarkup.Proofs.Encoding.Coverage
import TaggedMarkup.Schema.Check
import TaggedMarkup.Proofs.Profile
/-!
# Cases of elements

What is decoded of an element with a case is encoded with that case again where a schema declares
the case, or where no type claims the marker or the field that keeps it. A type with a tag of its
own, or with a field of that name, holds the case in the field instead. Elsewhere it can be
overwritten: by the only case of a variant, by a child that has the name of the field, or by a field
under the key of the marker (`case_overwritten`).
-/
namespace TaggedMarkup

open Encoder

namespace Entries

variable {α : Type} {es more : Entries α} {key : String}

theorem get?_extend_of_not_mem (h : key ∉ more.keys) : get? (extend es more) key = get? es key := by
  induction more generalizing es with
  | nil => rfl
  | cons e rest ih =>
    rw [keys_cons, List.mem_cons, not_or] at h
    change get? (extend (insert es e.1 e.2) rest) key = get? es key
    rw [ih h.2, get?_insert, if_neg (Ne.symm h.1)]

/-- Other keys are inserted behind the first entry. -/
theorem extend_cons_of_not_mem {a : α} (h : key ∉ more.keys) :
    extend ((key, a) :: es) more = (key, a) :: extend es more := by
  induction more generalizing es with
  | nil => rfl
  | cons e rest ih =>
    rw [keys_cons, List.mem_cons, not_or] at h
    change extend (insert ((key, a) :: es) e.1 e.2) rest = _
    rw [insert, if_neg h.1, ih h.2]
    rfl

end Entries

namespace Encoder

variable {e : Encoder} {o : Option ObjectType} {path : Path} {skipCase collapse : Bool}
  {fields : Entries Value} {own entries : Entries Tree} {case : String} {n : Tree}

/-! ## Entries of an object -/

/-- No field becomes a case marker. -/
theorem variant_not_mem_of_encodeFields (h : e.encodeFields skipCase fields o path = .ok own) :
    Marker.variant ∉ own.keys := by
  intro hmem
  obtain ⟨t, ht⟩ := Entries.exists_of_mem_keys hmem
  obtain ⟨f, -, hencodes⟩ := mem_of_forall₂_right (encodeFields_eq_ok_iff.1 h) ht
  have hne := ne_of_isReserved Marker.variant (by decide) hencodes.isReserved
  rcases hencodes.key with hk | ⟨-, hk⟩
  · exact hne hk.symm
  · exact absurd hk (show Marker.variant ≠ Marker.verbatim by decide)

/-- Filling in leaves the entries of all other fields alone. -/
theorem get?_withMissing (h : e.withMissing own fields o path = .ok entries) {key : String}
    (hk : declared? o key = none ∨ key ∈ fields.keys) :
    Entries.get? entries key = Entries.get? own key := by
  obtain ⟨filled, hfilled, rfl⟩ := withMissing_eq_ok_iff.1 h
  refine Entries.get?_extend_of_not_mem fun hmem => ?_
  rw [keys_of_fills hfilled] at hmem
  obtain ⟨f, hf⟩ := Entries.exists_of_mem_keys hmem
  obtain ⟨⟨t, ht, hfield⟩, hnew, -⟩ := mem_missingFields.1 hf
  rcases hk with hk | hk
  · rw [ht] at hk
    exact Entries.get?_eq_none_iff.1 hk (Entries.mem_keys_of_mem hfield)
  · exact hnew hk

/-- Where its type has no field under the key of the marker, the entries of an object hold none. -/
theorem get?_variant_of_entries (hm : declared? o Marker.variant = none)
    (hown : e.encodeFields skipCase fields o path = .ok own)
    (h : e.withMissing own fields o path = .ok entries) :
    Entries.get? entries Marker.variant = none := by
  rw [get?_withMissing h (.inl hm)]
  exact Entries.get?_eq_none_iff.2 (variant_not_mem_of_encodeFields hown)

theorem variantMarker?_finishCase (h : Entries.get? entries Marker.variant = none) (case : String) :
    (finishCase case entries).variantMarker? = some case := by
  have hget : Entries.get? (Entries.extend [(Marker.variant, Tree.text case)] entries)
      Marker.variant = some (.text case) :=
    (Entries.get?_extend_of_not_mem (Entries.get?_eq_none_iff.1 h)).trans rfl
  exact (congrArg (Option.bind · Tree.asText?) hget).trans rfl

/-- A tag is the case whatever else there is. -/
theorem variantMarker?_body_tag {t : ObjectType} (ht : t.tag = some case)
    (h : e.body (some t) collapse fields path = .ok n) : n.variantMarker? = some case := by
  obtain ⟨own, -, h⟩ := bind_eq_ok_iff.1 h
  obtain ⟨entries, -, h⟩ := bind_eq_ok_iff.1 h
  obtain rfl := pure_eq_ok_iff.1 h
  have huntyped : untypedCase? fields (some t) = none := by
    unfold untypedCase?
    rw [if_pos (by simp [ht])]
  have hget : Entries.get? (Entries.insert entries Marker.variant (Tree.text case)) Marker.variant =
      some (.text case) := by rw [Entries.get?_insert, if_pos rfl]
  unfold finishObject
  rw [huntyped, Option.bind_some, ht]
  exact (congrArg (Option.bind · Tree.asText?) hget).trans rfl

/-- An object that keeps its case in a field is written with the case. -/
theorem variantMarker?_body_untyped (hm : declared? o Marker.variant = none)
    (hcase : untypedCase? fields o = some case) (h : e.body o collapse fields path = .ok n) :
    n.variantMarker? = some case := by
  obtain ⟨own, hown, h⟩ := bind_eq_ok_iff.1 h
  obtain ⟨entries, hentries, h⟩ := bind_eq_ok_iff.1 h
  obtain rfl := pure_eq_ok_iff.1 h
  rw [hcase]
  exact variantMarker?_finishCase (get?_variant_of_entries hm hown hentries) case

/-- A string in a child is spelt by the child. -/
theorem exists_spells_of_encodesEntry {key text : String} {a : String × Tree}
    (hk : IsFieldName key) (h : EncodesEntry e o path (key, .string text) a) :
    ∃ t, a = (key, t) ∧ t.Spells text := by
  obtain ⟨hattribute, htext, -, -⟩ := isFieldName_iff.1 hk
  cases h with
  | attr hk' _ _ => cases hattribute.symm.trans hk'
  | text _ => exact absurd rfl htext
  | @child _ _ t _ ht =>
    have hscalar := encode_scalar (by simp [scalarTree]) ht
    obtain rfl := Option.some.inj hscalar
    refine ⟨_, rfl, ?_⟩
    unfold stringTree
    split
    · exact .verbatim
    · split
      · exact .typed .string
      · exact .plain

/-- Otherwise the case is the tag, if there is one, and the first field is written as such. -/
theorem body_plain (hm : declared? o Marker.variant = none) {rest : Entries Value}
    (hf : fields = (Marker.untypedCase, .string case) :: rest)
    (hcase : untypedCase? fields o = none) (h : e.body o collapse fields path = .ok n) :
    n = .null ∨ n.variantMarker? = o.bind ObjectType.tag ∧
      ∃ t, n.lookup? Marker.untypedCase = some t ∧ t.Spells case := by
  obtain ⟨own, hown, h⟩ := bind_eq_ok_iff.1 h
  obtain ⟨entries, hentries, h⟩ := bind_eq_ok_iff.1 h
  obtain rfl := pure_eq_ok_iff.1 h
  have hmarker := get?_variant_of_entries hm hown hentries
  have hfirst : ∃ t, Entries.get? entries Marker.untypedCase = some t ∧ t.Spells case := by
    have hrel := encodeFields_eq_ok_iff.1 hown
    rw [hcase, Option.isSome_none, ownFields_false, hf] at hrel
    rw [get?_withMissing hentries (.inr (hf ▸ List.mem_cons_self))]
    cases hrel with
    | @cons _ a _ own hencodes _ =>
      obtain ⟨t, rfl, ht⟩ := exists_spells_of_encodesEntry (by decide) hencodes
      exact ⟨t, by rw [Entries.get?_cons, if_pos rfl], ht⟩
  obtain ⟨t, hget, ht⟩ := hfirst
  unfold finishObject
  rw [hcase]
  split
  · next hsome => cases hsome
  · next tag _ htag =>
    have hinsert : Entries.get? (Entries.insert entries Marker.variant (Tree.text tag))
        Marker.variant = some (.text tag) := by rw [Entries.get?_insert, if_pos rfl]
    refine .inr ⟨?_, t, ?_, ht⟩
    · rw [htag]
      exact (congrArg (Option.bind · Tree.asText?) hinsert).trans rfl
    · rw [Tree.lookup?_map, Entries.get?_insert, if_neg (by decide), hget]
  · next _ htag =>
    split
    · exact .inl rfl
    · refine .inr ⟨?_, t, hget, ht⟩
      rw [htag]
      exact (congrArg (Option.bind · Tree.asText?) hmarker).trans rfl

/-! ## Objects at their places -/

theorem untypedCase?_cons (case : String) (rest : Entries Value) :
    untypedCase? ((Marker.untypedCase, .string case) :: rest) o =
      if keepsCase o then some case else none := by
  unfold untypedCase? keepsCase
  rw [Entries.get?_cons, if_pos rfl]
  cases o.any fun o => o.tag.isSome || (o.field? Marker.untypedCase).isSome <;> rfl

/-- A value is encoded as this tree, as a part of a definition or as its root. -/
def Yields (e : Encoder) (schema : Option Schema) (v : Value) (n : Tree) : Prop :=
  (∃ verbatim path, e.encode v schema verbatim path = .ok n) ∨
    ∃ s, schema = some s ∧ e.encodeRoot v s = .ok n

variable {schema : Option Schema}

/-- Where an object of a type or of none is asked for, its body is written. -/
theorem Yields.body (ht : plainType? (schema.map e.registry.resolve) = some o)
    (h : e.Yields schema (.object fields) n) :
    ∃ collapse path, e.body o collapse fields path = .ok n := by
  rcases h with ⟨verbatim, path, h⟩ | ⟨s, rfl, h⟩
  · rw [encode_object_plain ht] at h
    exact ⟨true, path, h⟩
  · rcases e.encodeRoot_object s with ⟨o', ho', hbody⟩ | ⟨hnone, -⟩
    · obtain rfl := Option.some.inj (ht.symm.trans ho')
      rw [hbody] at h
      exact ⟨false, .root, h⟩
    · cases ht.symm.trans hnone

/-- Elsewhere the root is no exception. -/
theorem Yields.encode (ht : plainType? (schema.map e.registry.resolve) = none)
    (h : e.Yields schema (.object fields) n) :
    ∃ verbatim path, e.encode (.object fields) schema verbatim path = .ok n := by
  rcases h with h | ⟨s, rfl, h⟩
  · exact h
  · rcases e.encodeRoot_object s with ⟨o, ho, -⟩ | ⟨-, hencode⟩
    · cases ht.symm.trans ho
    · rw [hencode] at h
      exact ⟨false, .root, h⟩

/-- An object whose first field is to keep a case. -/
theorem Yields.untyped (ht : plainType? (schema.map e.registry.resolve) = some o)
    (hm : declared? o Marker.variant = none) {rest : Entries Value}
    (h : e.Yields schema (.object ((Marker.untypedCase, .string case) :: rest)) n) :
    n = .null ∨ n.variantMarker? = some case ∨ keepsCase o = false ∧
      n.variantMarker? = o.bind ObjectType.tag ∧
        ∃ t, n.lookup? Marker.untypedCase = some t ∧ t.Spells case := by
  obtain ⟨collapse, path, h⟩ := h.body ht
  cases hkeeps : keepsCase o with
  | true =>
    have hcase : untypedCase? ((Marker.untypedCase, .string case) :: rest) o = some case := by
      rw [untypedCase?_cons, if_pos hkeeps]
    exact .inr (.inl (variantMarker?_body_untyped hm hcase h))
  | false =>
    have hcase : untypedCase? ((Marker.untypedCase, .string case) :: rest) o = none := by
      rw [untypedCase?_cons, if_neg (by simp [hkeeps])]
    exact (body_plain hm rfl hcase h).imp_right fun h => .inr ⟨rfl, h⟩

/-- Where no object can stand, nothing is left of one. -/
theorem Yields.blank (ht : plainType? (schema.map e.registry.resolve) = none)
    (hv : ∀ v, schema.map e.registry.resolve ≠ some (.variant v))
    (h : e.Yields schema (.object fields) n) : n = .null := by
  obtain ⟨verbatim, path, h⟩ := h.encode ht
  rw [Encoder.encode] at h
  split at h
  · next hs => rw [hs] at ht; cases ht
  · next hs => rw [hs] at ht; cases ht
  · next hs => rw [hs] at ht; cases ht
  · next v hs => exact absurd hs (hv v)
  · split at h
    · exact (Except.ok.inj h).symm
    · cases h

/-- The payload of a case under its name. -/
theorem variantMarker?_explicit {v : VariantType} {s : Schema} {verbatim : Bool}
    (hs : schema.map e.registry.resolve = some (.variant v)) (hinline : v.isInline = false)
    (hc : v.case? case = some s) (hm : declared? (e.registry.objectOf? s) Marker.variant = none)
    (h : e.encode (.object [(case, .object fields)]) schema verbatim path = .ok n) :
    n.variantMarker? = some case := by
  have hexplicit : explicitCase? v [(case, .object fields)] = some (case, s) :=
    explicitCase?_eq_some_iff.2 ⟨hinline, hc, _, rfl⟩
  rw [Encoder.encode, hs] at h
  simp only [List.isEmpty_cons, Bool.false_eq_true, if_false, hexplicit] at h
  obtain ⟨entries, hpayload, h⟩ := bind_eq_ok_iff.1 h
  obtain rfl := pure_eq_ok_iff.1 h
  obtain ⟨own, hown, hentries⟩ := bind_eq_ok_iff.1 hpayload
  exact variantMarker?_finishCase (get?_variant_of_entries hm hown hentries) case

/-- A value of a variant without a name for its case has the only one. -/
theorem variantMarker?_implied {v : VariantType} {s : Schema} {verbatim : Bool}
    (hs : schema.map e.registry.resolve = some (.variant v))
    (hnone : explicitCase? v fields = none) (hc : v.case? case = some s)
    (hm : declared? (e.registry.objectOf? s) Marker.variant = none)
    (h : e.encode (.object fields) schema verbatim path = .ok n) :
    n = .null ∨ n.variantMarker? = some case := by
  rw [Encoder.encode, hs] at h
  simp only at h
  split at h
  · exact .inl (Except.ok.inj h).symm
  · rw [hnone] at h
    obtain ⟨⟨case', s'⟩, himplied, h⟩ := bind_eq_ok_iff.1 h
    obtain ⟨rfl, rfl⟩ := VariantType.eq_of_soleCase? (impliedCase_eq_ok_iff.1 himplied) hc
    obtain ⟨own, hown, h⟩ := bind_eq_ok_iff.1 h
    obtain ⟨entries, hentries, h⟩ := bind_eq_ok_iff.1 h
    obtain rfl := pure_eq_ok_iff.1 h
    exact .inr (variantMarker?_finishCase (get?_variant_of_entries hm hown hentries) _)

/-- A case that a variant does not declare is refused, unless the variant implies another one. -/
theorem null_of_undeclared {v : VariantType} {verbatim : Bool}
    (hs : schema.map e.registry.resolve = some (.variant v)) (hnone : explicitCase? v fields = none)
    (hsole : v.soleCase? = none) (h : e.encode (.object fields) schema verbatim path = .ok n) :
    n = .null := by
  rw [Encoder.encode, hs] at h
  simp only at h
  split at h
  · exact (Except.ok.inj h).symm
  · rw [hnone] at h
    obtain ⟨c, himplied, -⟩ := bind_eq_ok_iff.1 h
    cases hsole.symm.trans (impliedCase_eq_ok_iff.1 himplied)

end Encoder

namespace Decoder

variable {d : Decoder} {entries : Entries Tree} {case : String} {hint : Option Schema}

theorem decode_case (hkind : Tree.kind? (.map entries) = none)
    (hcase : Tree.variantMarker? (.map entries) = some case) :
    d.decode (.map entries) hint = d.asCase hint case fun o => d.decodeFields true entries o := by
  rw [decode, hkind, hcase]
  rfl

/-- Nothing claims the case of an element at a place: a variant declares it or implies none, and an
object has the case as its tag, or no child and no field under the names that stand for a case. -/
def LeavesCase (d : Decoder) (entries : Entries Tree) (case : String) :
    Option Resolved → Prop
  | some (.variant v) =>
    (∃ s, v.case? case = some s ∧ declared? (d.registry.objectOf? s) Marker.variant = none) ∨
      v.case? case = none ∧ v.soleCase? = none
  | resolved => ∀ o, plainType? resolved = some o → o.bind ObjectType.tag = some case ∨
      declared? o Marker.variant = none ∧
        Marker.untypedCase ∉ (d.decodeFields true entries o).keys

theorem LeavesCase.of_plainType? {o : Option ObjectType} {resolved : Option Resolved}
    (h : d.LeavesCase entries case resolved) (ht : plainType? resolved = some o) :
    o.bind ObjectType.tag = some case ∨ declared? o Marker.variant = none ∧
      Marker.untypedCase ∉ (d.decodeFields true entries o).keys := by
  unfold LeavesCase at h
  split at h
  · cases ht
  · exact h o ht

theorem decodeDocument_of_decode {t : Tree} {schema : Schema} {fields : Entries Value}
    (h : d.decode t (some schema) = .object fields) :
    d.decodeDocument t schema = .object fields := by
  rw [decodeDocument, h]

/-- What is decoded of an element with a case is an object. -/
theorem exists_asCase (d : Decoder) (hint : Option Schema) (case : String)
    (f : Option ObjectType → Entries Value) : ∃ fields, d.asCase hint case f = .object fields :=
  asCase_holds (P := fun v => ∃ fields, v = .object fields) (fun _ => ⟨_, rfl⟩) (fun _ => ⟨_, rfl⟩)
    fun _ => ⟨_, rfl⟩

end Decoder

namespace Encoder

variable {e : Encoder} {d : Decoder} {entries : Entries Tree} {case : String}
  {hint : Option Schema} {n : Tree}

/-- The case of an element where an object of a type or of none is asked for. -/
theorem Yields.restored_plain (hd : d.registry = e.registry) {o : Option ObjectType}
    (ht : plainType? (hint.map e.registry.resolve) = some o)
    (hleaves : d.LeavesCase entries case (hint.map e.registry.resolve))
    (h : e.Yields hint (d.asCase hint case fun o => d.decodeFields true entries o) n) :
    n = .null ∨ n.variantMarker? = some case ∨ o.bind ObjectType.tag ≠ some case ∧
      keepsCase o = false ∧ n.variantMarker? = o.bind ObjectType.tag ∧
        ∃ t, n.lookup? Marker.untypedCase = some t ∧ t.Spells case := by
  rw [Decoder.asCase_of_plainType? (by rw [hd]; exact ht)] at h
  by_cases htag : o.bind ObjectType.tag = some case
  · rw [if_pos htag] at h
    obtain ⟨t, rfl, htag⟩ := Option.bind_eq_some_iff.1 htag
    obtain ⟨collapse, path, h⟩ := h.body ht
    exact .inr (.inl (variantMarker?_body_tag htag h))
  · rw [if_neg htag] at h
    obtain ⟨hm, hfree⟩ := (hleaves.of_plainType? ht).resolve_left htag
    -- No entry overwrites the field that keeps the case, so it stays the first one.
    unfold Decoder.untyped at h
    rw [Entries.extend_cons_of_not_mem hfree] at h
    exact (h.untyped ht hm).imp_right fun h => h.imp_right fun h => ⟨htag, h⟩

/-- The case of an element where a variant is asked for. -/
theorem Yields.restored_variant (hd : d.registry = e.registry) {v : VariantType}
    (hs : hint.map e.registry.resolve = some (.variant v))
    (hleaves : d.LeavesCase entries case (hint.map e.registry.resolve))
    (h : e.Yields hint (d.asCase hint case fun o => d.decodeFields true entries o) n) :
    n = .null ∨ n.variantMarker? = some case := by
  have ht : plainType? (hint.map e.registry.resolve) = none := by rw [hs]; rfl
  have hs' : hint.map d.registry.resolve = some (.variant v) := by rw [hd]; exact hs
  rw [hs] at hleaves
  rcases hleaves with ⟨s, hc, hm⟩ | ⟨hc, hsole⟩
  · rw [hd] at hm
    rw [Decoder.asCase_of_case? hs' hc, hd] at h
    split at h
    · next hinline =>
      obtain ⟨verbatim, path, h⟩ := h.encode ht
      refine variantMarker?_implied hs (Option.eq_none_iff_forall_not_mem.2 ?_) hc hm h
      rintro ⟨case', s'⟩ hexplicit
      rw [(explicitCase?_eq_some_iff.1 hexplicit).1] at hinline
      cases hinline
    · next hinline =>
      obtain ⟨verbatim, path, h⟩ := h.encode ht
      exact .inr (variantMarker?_explicit hs (by simpa using hinline) hc hm h)
  · rw [Decoder.asCase_of_undeclared hs' hc] at h
    obtain ⟨verbatim, path, h⟩ := h.encode ht
    refine .inl (null_of_undeclared hs (Option.eq_none_iff_forall_not_mem.2 ?_) hsole h)
    rintro ⟨case', s'⟩ hexplicit
    obtain ⟨-, hc', payload, heq⟩ := explicitCase?_eq_some_iff.1 hexplicit
    obtain ⟨rfl, -⟩ := Prod.mk.inj (List.cons.inj heq).1
    cases hc.symm.trans hc'

/-- An element whose case nothing else claims is decoded, and encoded again at the same place, with
the same case, if it is encoded at all and does not collapse. Only an object type that has another
tag, or none and a field for the case, holds it in that field. -/
theorem case_restored (e : Encoder) (res : Resolutions) (keepEmpty : Bool) {entries : Entries Tree}
    {case : String} (hkind : Tree.kind? (.map entries) = none)
    (hcase : Tree.variantMarker? (.map entries) = some case) {hint : Option Schema}
    (hleaves : (e.decoder res keepEmpty).LeavesCase entries case (hint.map e.registry.resolve))
    {n : Tree} (hn : (∃ verbatim path,
        e.encode ((e.decoder res keepEmpty).decode (.map entries) hint) hint verbatim path =
          .ok n) ∨
      ∃ schema, hint = some schema ∧
        e.encodeRoot ((e.decoder res keepEmpty).decodeDocument (.map entries) schema) schema =
          .ok n) :
    n = .null ∨ n.variantMarker? = some case ∨
      ∃ o, hint.map e.registry.resolve = some (.object o) ∧ o.tag ≠ some case ∧
        (o.tag ≠ none ∨ o.field? Marker.untypedCase ≠ none) ∧ n.variantMarker? = o.tag ∧
        ∃ t, n.lookup? Marker.untypedCase = some t ∧ t.Spells case := by
  have hvalue : (e.decoder res keepEmpty).decode (.map entries) hint =
      (e.decoder res keepEmpty).asCase hint case fun o =>
        (e.decoder res keepEmpty).decodeFields true entries o := Decoder.decode_case hkind hcase
  have hyields : e.Yields hint ((e.decoder res keepEmpty).asCase hint case fun o =>
      (e.decoder res keepEmpty).decodeFields true entries o) n := by
    rcases hn with hn | ⟨schema, rfl, hn⟩
    · rw [← hvalue]
      exact .inl hn
    · obtain ⟨fields, hfields⟩ := (e.decoder res keepEmpty).exists_asCase (some schema) case
        fun o => (e.decoder res keepEmpty).decodeFields true entries o
      rw [Decoder.decodeDocument_of_decode (hvalue.trans hfields)] at hn
      rw [hfields]
      exact .inr ⟨schema, rfl, hn⟩
  cases ht : plainType? (hint.map e.registry.resolve) with
  | some o =>
    refine (hyields.restored_plain rfl ht hleaves).imp_right fun h => h.imp_right ?_
    rintro ⟨htag, hkeeps, hmarker, hfield⟩
    cases o with
    | none => cases hkeeps
    | some o =>
      have hclaims : o.tag ≠ none ∨ o.field? Marker.untypedCase ≠ none := by
        simpa [keepsCase, Option.isSome_iff_ne_none, imp_iff_not_or] using hkeeps
      exact ⟨o, eq_object_of_plainType? ht, htag, hclaims, hmarker, hfield⟩
  | none =>
    by_cases hv : ∃ v, hint.map e.registry.resolve = some (.variant v)
    · obtain ⟨v, hs⟩ := hv
      exact (hyields.restored_variant rfl hs hleaves).imp_right .inl
    · obtain ⟨fields, hfields⟩ := (e.decoder res keepEmpty).exists_asCase hint case
        fun o => (e.decoder res keepEmpty).decodeFields true entries o
      rw [hfields] at hyields
      exact .inl (hyields.blank ht (not_exists.1 hv))

/-- A declared case without content comes back with the fields that are filled in. -/
theorem case_restored_condition :
    Tree.kind? (.map [(Marker.variant, .text "condition")]) = none ∧
      Tree.variantMarker? (.map [(Marker.variant, .text "condition")]) = some "condition" ∧
      ∃ n, (ofRegistry Analytics.registry .standard).encode
          (((ofRegistry Analytics.registry .standard).decoder ⟨[]⟩ false).decode
            (.map [(Marker.variant, .text "condition")]) (some (.named "criterion")))
          (some (.named "criterion")) false .root = .ok n ∧
        n.variantMarker? = some "condition" := by
  have hok : ((ofRegistry Analytics.registry .standard).encode
      (((ofRegistry Analytics.registry .standard).decoder ⟨[]⟩ false).decode
        (.map [(Marker.variant, .text "condition")]) (some (.named "criterion")))
      (some (.named "criterion")) false .root).toOption.any (!Tree.isPlaceholder ·) = true := by
    decide +kernel
  obtain ⟨n, hn, hshown⟩ := (Option.any_eq_true _ _).1 hok
  rw [← eq_ok_iff_toOption] at hn
  refine ⟨rfl, rfl, n, hn, ?_⟩
  rcases @case_restored (ofRegistry Analytics.registry .standard) ⟨[]⟩ false
    [(Marker.variant, .text "condition")] "condition" rfl rfl (some (.named "criterion"))
    (.inl ⟨_, rfl, rfl⟩) n (.inl ⟨_, _, hn⟩) with rfl | hcase | ⟨o, ho, -⟩
  · cases hshown
  · exact hcase
  · cases ho

/-- Types that have a case of their own, or a field with the name of the case or of its marker. -/
def claiming : Registry where
  types := [
    .object { name := "tagged", tag := some "tagged" },
    .object { name := "typed", fields := [(Marker.untypedCase, Schema.string)] },
    .object { name := "marked", fields := [(Marker.variant, Schema.string)] },
    .variant { name := "single", cases := [("tagged", .named "tagged")] }]

theorem fault?_claiming : claiming.fault? = none := by
  rw [Registry.fault?, Registry.fillCycle?_eq_none (by decide)]
  rfl

/-- At a place an element with other entries beside its case comes back without the case. -/
def LosesCase (r : Registry) (hint : Option Schema) (beside : Entries Tree) : Prop :=
  Tree.kind? (.map ((Marker.variant, .text "case") :: beside)) = none ∧
    Tree.variantMarker? (.map ((Marker.variant, .text "case") :: beside)) = some "case" ∧
    ∃ n, (ofRegistry r .standard).encode
        (((ofRegistry r .standard).decoder ⟨[]⟩ false).decode
          (.map ((Marker.variant, .text "case") :: beside)) hint) hint false .root = .ok n ∧
      n.isPlaceholder = false ∧ n.variantMarker? ≠ some "case"

theorem losesCase_of_encode {r : Registry} {hint : Option Schema} {beside : Entries Tree}
    (hkind : Tree.kind? (.map ((Marker.variant, .text "case") :: beside)) = none)
    (h : ((ofRegistry r .standard).encode
        (((ofRegistry r .standard).decoder ⟨[]⟩ false).decode
          (.map ((Marker.variant, .text "case") :: beside)) hint) hint false .root).toOption.any
      (fun n => !n.isPlaceholder && n.variantMarker? != some "case") = true) :
    LosesCase r hint beside := by
  obtain ⟨n, hn, hcase⟩ := (Option.any_eq_true _ _).1 h
  rw [← eq_ok_iff_toOption] at hn
  rw [Bool.and_eq_true, Bool.not_eq_true', bne_iff_ne] at hcase
  exact ⟨hkind, rfl, n, hn, hcase⟩

/-- A type with a tag, or with a field for the case, keeps the case in that field. -/
theorem case_not_restored :
    claiming.fault? = none ∧ LosesCase claiming (some (.named "tagged")) [] ∧
      LosesCase claiming (some (.named "typed")) [] :=
  ⟨fault?_claiming, losesCase_of_encode (by decide) (by decide +kernel),
    losesCase_of_encode (by decide) (by decide +kernel)⟩

/-- A case is overwritten by a field with the name of its marker, by the only case of a variant, and
without a schema by a child. -/
theorem case_overwritten :
    claiming.fault? = none ∧ LosesCase claiming (some (.named "marked")) [] ∧
      LosesCase claiming (some (.named "single")) [] ∧
      LosesCase claiming none [(Marker.untypedCase, .text "other")] :=
  ⟨fault?_claiming, losesCase_of_encode (by decide) (by decide +kernel),
    losesCase_of_encode (by decide) (by decide +kernel),
    losesCase_of_encode (by decide) (by decide +kernel)⟩

end Encoder

end TaggedMarkup
