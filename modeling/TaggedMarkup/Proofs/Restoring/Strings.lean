import TaggedMarkup.Proofs.Cycle.Convergence
import TaggedMarkup.Proofs.Filling.Saturation
import TaggedMarkup.Proofs.Filling.Synthesis
/-!
# Strings in scalar fields

A definition that holds one string, in a scalar field, can always be written if the defaults around
it can. How the string is written depends on its padding, on what it spells and on the field, and
reading undoes each of the ways. A verbatim field is the exception: its text stands as it is, without
the mark of a string, so that what it spells is read by the schema of the field.
-/
namespace TaggedMarkup

open Encoder Markup TaggedMarkup.Tree

/-! ## Defaults that are encoded -/

namespace Encoder

variable {r : Registry} {c : Convention} {o : ObjectType} {fields : Entries Value} {v : Value}
  {s : Option Schema} {t : Tree}

/-- The default literals of a registry are encoded under their own schemas. -/
def EncodesLiterals (r : Registry) (c : Convention) : Prop :=
  ∀ s v, r.Literal s v → ∃ t, (ofRegistry r c).encode v (some s) false .root = .ok t

/-- Where a value stands and whether its text is verbatim does not decide if it is encoded. -/
theorem exists_encode_at (h : (ofRegistry r c).encode v s false .root = .ok t) (verbatim : Bool)
    (path : Path) : ∃ t, (ofRegistry r c).encode v s verbatim path = .ok t := by
  have hpath := encode_at (fillsAlike_ofRegistry r c) h path
  cases v with
  | string text =>
    have hscalar := takesScalar_of_encode rfl rfl hpath
    exact ⟨stringTree text verbatim, encode_of_hasText rfl hscalar (by simp [scalarTree]) path⟩
  | _ => exact ⟨t, by simpa only [encode] using hpath⟩

/-- The entries of an object, if those of its fields and of what it leaves out are there. -/
theorem exists_lays {e : Encoder} {path : Path} (skipCase : Bool)
    (hown : ∀ f ∈ fields, ∃ a, EncodesEntry e (some o) path f a)
    (hfilled : ∀ name f, (name, f) ∈ o.fields → f.optional = false → name ∉ fields.keys →
      ∃ t, e.fill f (path.child name) = .ok t) :
    ∃ entries, e.Lays (some o) path skipCase fields entries := by
  obtain ⟨own, hown⟩ : ∃ own,
      List.Forall₂ (EncodesEntry e (some o) path) (ownFields skipCase fields) own :=
    exists_forall₂ fun f hf => hown f (List.mem_of_mem_filter hf)
  obtain ⟨filled, hfilled⟩ : ∃ filled,
      List.Forall₂ (Fills e path) (missingFields (some o) fields.keys) filled := by
    refine exists_forall₂ fun f hf => ?_
    obtain ⟨⟨u, hu, hmem⟩, hnew, hrequired⟩ := mem_missingFields.1 hf
    obtain rfl := Option.some.inj hu
    obtain ⟨t, ht⟩ := hfilled f.1 f.2 hmem hrequired hnew
    exact ⟨(f.1, t), rfl, ht⟩
  exact ⟨_, own, filled, hown, hfilled, rfl⟩

/-- The entry of a field that the type declares. -/
theorem encodesEntry_declared {e : Encoder} (ho : o.WellKeyed) {path : Path} {name : String}
    {f : Field} (hf : (name, f) ∈ o.fields)
    (h : e.encode v (some f.schema) f.verbatim (path.child name) = .ok t) :
    EncodesEntry e (some o) path (name, v) (name, t) := by
  have hdeclared : declared? (some o) name = some f := (Entries.get?_eq_some_iff ho.distinct).2 hf
  exact .child (ho.names name f hf) (by rw [hdeclared]; exact h)

/-- What a field is filled in with is encoded if the literals are. -/
theorem exists_encode_synthesizeField (hr : r.WellKeyed) (hlit : EncodesLiterals r c)
    (ho : .object o ∈ r.types) {name : String} {f : Field} (hf : (name, f) ∈ o.fields) :
    ∃ t, (ofRegistry r c).encode (r.synthesizeField f) (some f.schema) false .root = .ok t := by
  refine (Registry.synthesis_induction (P := fun s v =>
    ∃ t, (ofRegistry r c).encode v (some s) false .root = .ok t) (fun _ => ⟨_, rfl⟩) ?_ hlit ?_).2
    o name f ho hf
  · intro s item hs
    have hitem : itemType? ((some s).map (ofRegistry r c).registry.resolve) = some (some item) :=
      congrArg (itemType? ∘ some) hs
    exact ⟨_, encode_list_eq_ok_iff.2 ⟨_, [], hitem, rfl, rfl⟩⟩
  · intro s p expand hs _ heach
    have hp : p.WellKeyed := hr.of_resolve hs
    have hplain : plainType? ((some s).map (ofRegistry r c).registry.resolve) = some (some p) :=
      plainType?_of_object hs
    -- An object that is made of defaults leaves nothing out.
    obtain ⟨entries, hl⟩ : ∃ entries, (ofRegistry r c).Lays (some p) .root
        (untypedCase? (r.fieldsWith expand p) (some p)).isSome (r.fieldsWith expand p) entries := by
      refine exists_lays _ (fun ⟨key, v⟩ hv => ?_) fun name g hg hrequired hnew => ?_
      · obtain ⟨g, hg, -, rfl⟩ := Registry.mem_fieldsWith.1 hv
        obtain ⟨t, ht⟩ := heach key g hg
        obtain ⟨t, ht⟩ := exists_encode_at ht g.verbatim _
        exact ⟨_, encodesEntry_declared hp hg ht⟩
      · exact absurd (Entries.mem_keys_of_mem
          (Registry.mem_fieldsWith.2 ⟨g, hg, hrequired, rfl⟩)) hnew
    exact ⟨_, (encode_object_eq_ok_iff hr).2 (.plain hplain hl)⟩

/-- So every field can be filled in. -/
theorem exists_fill (hr : r.WellKeyed) (hlit : EncodesLiterals r c) (ho : .object o ∈ r.types)
    {name : String} {f : Field} (hf : (name, f) ∈ o.fields) (path : Path) :
    ∃ t, (ofRegistry r c).fill f path = .ok t := by
  obtain ⟨t, ht⟩ := exists_encode_synthesizeField hr hlit ho hf
  obtain ⟨t, ht⟩ := exists_encode_at ht f.verbatim path
  exact ⟨t, (fill_eq_ok_iff hr ho hf).2 ht⟩

/-- Alone in a field that the type declares, a string is no case. -/
theorem untypedCase?_declared {name : String} {f : Field} (hf : (name, f) ∈ o.fields) :
    untypedCase? [(name, v)] (some o) = none := by
  refine Option.eq_none_iff_forall_not_mem.2 fun case hcase => ?_
  obtain ⟨hmem, hnone⟩ := untypedCase?_eq_some hcase
  obtain ⟨rfl, -⟩ := Prod.mk.inj (List.mem_singleton.1 hmem)
  exact Entries.get?_eq_none_iff.1 hnone (Entries.mem_keys_of_mem hf)

/-- An object with one string in a scalar field is encoded as the root of a document: what the
field holds stands first and then what is filled in. -/
theorem exists_encodeRoot_string (hr : r.WellKeyed) (hlit : EncodesLiterals r c) {schema : Schema}
    (ho : r.resolve schema = .object o) {name : String} {f : Field} (hf : (name, f) ∈ o.fields)
    {kind : Primitive} (hkind : f.schema = .primitive kind) (text : String) :
    ∃ entries, (ofRegistry r c).Lays (some o) .root false [(name, .string text)] entries ∧
      (name, stringTree text f.verbatim) ∈ entries ∧
      (ofRegistry r c).encodeRoot (.object [(name, .string text)]) schema =
        .ok (finishObject none (some o) false entries) := by
  have hwell := hr.of_resolve ho
  have hmem := Registry.mem_types_of_resolve ho
  have hscalar : takesScalar ((some f.schema).map r.resolve) = true := by
    rw [hkind]
    rfl
  have hstring : (ofRegistry r c).encode (.string text) (some f.schema) f.verbatim
      (Path.root.child name) = .ok (stringTree text f.verbatim) :=
    encode_of_hasText rfl hscalar (by simp [scalarTree]) _
  have hentry := encodesEntry_declared hwell hf hstring
  obtain ⟨entries, hl⟩ : ∃ entries,
      (ofRegistry r c).Lays (some o) .root false [(name, .string text)] entries := by
    refine exists_lays false (fun a ha => ?_) fun key g hg _ _ => exists_fill hr hlit hmem hg _
    exact List.mem_singleton.1 ha ▸ ⟨_, hentry⟩
  refine ⟨entries, hl, ?_, ?_⟩
  · obtain ⟨a, ha, hencodes⟩ := hl.exists_entry (f := (name, .string text)) (by simp [ownFields])
    exact hencodes.unique hentry ▸ ha
  · have hnone : untypedCase? [(name, .string text)] (some o) = none :=
      untypedCase?_declared hf
    refine (encodeRoot_object_eq_ok_iff hr ho).2 ⟨entries, ?_, ?_⟩
    · rwa [hnone]
    · rw [hnone]

end Encoder

/-! ## Strings that are read back -/

/-- The number or truth value that a text spells where a scalar of this kind stands. -/
def Primitive.spelled? (kind : Primitive) (text : String) : Option Value :=
  match kind with
  | .string => none
  | .number => (Number.canonical? text).map .number
  | .boolean => (canonicalBool? text).map .bool
  | .unknown => ((Number.canonical? text).map .number).or ((canonicalBool? text).map .bool)

theorem Primitive.spelled?_eq_none {text : String} (hnumber : Number.canonical? text = none)
    (hbool : canonicalBool? text = none) (kind : Primitive) : kind.spelled? text = none := by
  cases kind <;> simp [Primitive.spelled?, hnumber, hbool]

/-- A scalar is read where a scalar stands. -/
theorem Primitive.hasText_spelled (kind : Primitive) (text : String) :
    ((kind.spelled? text).getD (.string text)).hasText = true := by
  cases kind with
  | string => rfl
  | number =>
    cases h : Number.canonical? text <;> simp [Primitive.spelled?, h, Value.hasText]
  | boolean =>
    cases h : canonicalBool? text <;> simp [Primitive.spelled?, h, Value.hasText]
  | unknown =>
    cases h : Number.canonical? text <;> cases h' : canonicalBool? text <;>
      simp [Primitive.spelled?, h, h', Value.hasText]

namespace Decoder

variable {d : Decoder} {e : Encoder} {o : ObjectType} {fields : Entries Value}
  {entries : Entries Tree} {path : Path} {schema : Schema} {name : String} {f : Field} {t : Tree}

theorem literal_primitive (text : String) (kind : Primitive) :
    d.literal text (some (.primitive kind)) = (kind.spelled? text).getD (.string text) := by
  cases kind with
  | string => rfl
  | number => rfl
  | boolean => rfl
  | unknown =>
    change natural text = _
    unfold natural Primitive.spelled?
    cases Number.canonical? text <;> cases canonicalBool? text <;> rfl

/-- A string in a scalar field is read back as it is, unless its text was written verbatim. -/
theorem decode_stringTree_primitive {text : String} (hplain : d.reference? text = none)
    (verbatim : Bool) (kind : Primitive) :
    d.decode (stringTree text verbatim).reread (some (.primitive kind)) =
      if verbatim then (kind.spelled? text).getD (.string text) else .string text := by
  rw [decode_stringTree, scalar, hplain]
  simp only [literal_primitive]
  cases verbatim with
  | true => rfl
  | false =>
    split
    · rfl
    · next hmarked =>
      have hnone : kind.spelled? text = none := by
        cases hpadded : Text.isPadded text with
        | true =>
          exact Primitive.spelled?_eq_none (Number.canonical?_eq_none_of_isPadded hpadded)
            (canonicalBool?_eq_none_of_isPadded hpadded) kind
        | false =>
          have hspelled : (Number.canonical? text).isSome = false ∧
              (canonicalBool? text).isSome = false := by simpa [hpadded] using hmarked
          exact Primitive.spelled?_eq_none (by simpa using hspelled.1) (by simpa using hspelled.2)
            kind
      rw [hnone]
      rfl

/-- An object of a type shows the fields that are read back, whatever becomes of its tag. -/
theorem exists_decode_finishObject (ho : o.WellKeyed) (hschema : d.registry.resolve schema = .object o)
    (hd : fields.Distinct) (hl : e.Lays (some o) path false fields entries)
    (hparts : hasParts entries = true) {v : Value}
    (hv : Entries.get? (d.readBack (some o) entries) name = some v) :
    ∃ back, d.decode (finishObject none (some o) false entries).reread (some schema) =
      .object back ∧ Entries.get? back name = some v := by
  have hwell : ∀ u, some o = some u → u.WellKeyed := fun u hu => Option.some.inj hu ▸ ho
  have hvariant := hl.variant_not_mem hwell
  have hkind : KindFree entries := fun u hu => hl.kind hwell hu
  have hplain := plainType?_of_object hschema
  cases htag : o.tag with
  | none =>
    have hhint : d.objectHint (some schema) = some o := by
      rw [objectHint, Option.map_some, hschema]
    rw [finishObject_none (show (some o).bind ObjectType.tag = none from htag), if_neg (by simp),
      decode_reread_plain hparts hkind hvariant, hhint]
    exact ⟨_, rfl, hv⟩
  | some tag =>
    have hm : Marks tag entries _ := .last
    rw [finishObject_tag hwell hl (show (some o).bind ObjectType.tag = some tag from htag),
      hm.decode hkind hvariant, asCase_of_plainType? hplain]
    split
    · exact ⟨_, rfl, hv⟩
    · -- A padded tag is read as another case, which is kept beside the fields.
      refine ⟨_, rfl, ?_⟩
      rw [Entries.get?_extend (distinct_readBack (hl.distinct hwell hd)), hv]
      rfl

/-- A text that the store does not hold is no reference. -/
theorem Sound.reference?_eq_none {store : Store} (h : d.Sound store) {text : String}
    (hplain : d.convention.spelled? store text = none) : d.reference? text = none := by
  refine Option.eq_none_iff_forall_not_mem.2 fun reference hreference => ?_
  have hspelled := h.reference? hreference
  rw [hplain] at hspelled
  cases hspelled

/-- What the field of a string holds when the root element is read back. -/
theorem get?_decodeDocument_string (ho : o.WellKeyed)
    (hschema : d.registry.resolve schema = .object o) (hf : (name, f) ∈ o.fields)
    {kind : Primitive} (hkind : f.schema = .primitive kind) {text : String}
    (hplain : d.reference? text = none)
    (hl : e.Lays (some o) path false [(name, .string text)] entries)
    (ht : (name, stringTree text f.verbatim) ∈ entries) :
    (d.decodeDocument (finishObject none (some o) false entries).reread schema).get? name =
      some (if f.verbatim then (kind.spelled? text).getD (.string text) else .string text) := by
  have hdecode : d.decode (stringTree text f.verbatim).reread (some f.schema) =
      if f.verbatim then (kind.spelled? text).getD (.string text) else .string text := by
    rw [hkind, decode_stringTree_primitive hplain]
  have hkeeps : d.keeps (d.decode (stringTree text f.verbatim).reread (some f.schema)) = true := by
    have htext : (d.decode (stringTree text f.verbatim).reread (some f.schema)).hasText = true := by
      rw [hdecode]
      split
      · exact kind.hasText_spelled text
      · rfl
    rw [keeps, isEmptyContainer_of_hasText htext, Bool.not_false, Bool.or_true]
  have hd : Entries.Distinct [(name, Value.string text)] := List.nodup_singleton _
  have hdistinct := hl.distinct (fun u hu => Option.some.inj hu ▸ ho) hd
  have hname := ho.names name f hf
  have hdeclared : declared? (some o) name = some f := (Entries.get?_eq_some_iff ho.distinct).2 hf
  have hfield := get?_readBack_field (d := d) (o := some o) hdistinct hname ht
  rw [hdeclared, Option.map_some, if_pos hkeeps] at hfield
  obtain ⟨back, hback, hget⟩ := exists_decode_finishObject ho hschema hd hl
    (hasParts_of_isFieldName hname (Entries.mem_keys_of_mem ht)) hfield
  rw [Profile.decodeDocument_of_object hback, ← hdecode, ← hget]
  rfl

end Decoder

/-- The literals of datasets and workbooks are encoded. -/
theorem Analytics.registry_encodesLiterals : EncodesLiterals registry .standard := by
  have hall : (registry.literals.all fun l =>
      ((ofRegistry registry .standard).encode l.2 (some l.1) false .root).toOption.isSome) = true := by
    decide +kernel
  intro s v hv
  obtain ⟨t, ht⟩ := Option.isSome_iff_exists.1 (List.all_eq_true.1 hall _ hv.mem_literals)
  exact ⟨t, eq_ok_iff_toOption.2 ht⟩

namespace Profile

variable {p : Profile} {store : Store} {kind : String} {schema : Schema} {o : ObjectType}
  {name : String} {f : Field} {primitive : Primitive} {text : String}

/-- The name of a field is no attribute. -/
theorem isNamed_string (ho : o.WellKeyed) (hf : (name, f) ∈ o.fields) (text : String) :
    (Value.object [(name, .string text)]).isNamed = true := by
  refine Value.isNamed_object_iff.2 fun key v hv => ?_
  obtain ⟨rfl, rfl⟩ := Prod.mk.inj (List.mem_singleton.1 hv)
  refine ⟨fun label hlabel _ => ?_, rfl⟩
  rw [(isFieldName_iff.1 (ho.names _ f hf)).1] at hlabel
  cases hlabel

/-- A string in a scalar field of a root can be written, and comes back if the text is within the
limits. In a verbatim field what the text spells under the schema of the field comes back. -/
theorem decode_encode_string (hr : p.registry.WellKeyed) (hn : p.registry.isNamed = true)
    (hlit : EncodesLiterals p.registry p.convention)
    (hschema : p.registry.schemaFor? kind = some schema)
    (ho : p.registry.resolve schema = .object o) (hf : (name, f) ∈ o.fields)
    (hprimitive : f.schema = .primitive primitive)
    (hplain : p.convention.spelled? store text = none) :
    ∃ document, p.encodeTree kind (.object [(name, .string text)]) = .ok document ∧
      p.encode kind (.object [(name, .string text)]) = .ok (write p.layout document) ∧
      ((write p.layout document).utf8ByteSize ≤ p.settings.maxDocumentBytes →
        document.height ≤ p.settings.maxDepth →
        ∃ d, p.decode store kind (write p.layout document) = .ok d ∧
          d.value.get? name = some
            (if f.verbatim then (primitive.spelled? text).getD (.string text) else .string text)) := by
  obtain ⟨entries, hl, hentry, hroot⟩ := exists_encodeRoot_string (c := p.convention) hr hlit ho hf
    hprimitive text
  have hdocument := encodeTree_eq_ok_iff.2 ⟨schema, _, hschema, hroot, rfl⟩
  refine ⟨_, hdocument, encode_eq_ok_iff.2 ⟨_, hdocument, rfl⟩, fun hsize hdepth => ?_⟩
  have hdistinct : Entries.Distinct [(name, Value.string text)] := List.nodup_singleton _
  have hkeyed : (Value.object [(name, .string text)]).Keyed :=
    .object hdistinct (by simpa using Value.Keyed.string text)
  obtain ⟨_, root, -, hroot', hwritable, hlist⟩ := writable_of_encodeTree hr hn hkeyed
    (isNamed_string (hr.of_resolve ho) hf text) hdocument
  obtain rfl := (Prod.mk.inj (List.cons.inj (Tree.map.inj hroot')).1).2
  refine ⟨_, decode_write hwritable hlist hschema hsize hdepth, ?_⟩
  have hsound : ∀ ps, (p.decoder (p.convention.resolveAll store ps)).Sound store :=
    Decoder.sound_resolveAll _ _ _
  exact Decoder.get?_decodeDocument_string (hr.of_resolve ho) ho hf hprimitive
    ((hsound _).reference?_eq_none hplain) hl hentry

/-- Blanks, a numeral and the end of a verbatim section in a field of a dataset. -/
theorem decode_encode_string_owner :
    ∃ written d, Profile.encode {} "dataset" (.object [("ownerId", .string " 5 ]]>")]) = .ok written ∧
      Profile.decode {} .empty "dataset" written = .ok d ∧
      d.value.get? "ownerId" = some (.string " 5 ]]>") := by
  have hcheck : ((Profile.encodeTree {} "dataset" (.object [("ownerId",
      .string " 5 ]]>")])).toOption.any (isWithin {})) = true := by decide +kernel
  obtain ⟨document, hdocument, hwithin⟩ := (Option.any_eq_true _ _).1 hcheck
  rw [← eq_ok_iff_toOption] at hdocument
  obtain ⟨hsize, hdepth⟩ := le_of_isWithin hwithin
  obtain ⟨document', hdocument', hwritten, hread⟩ := decode_encode_string (p := {})
    (f := { schema := .number }) Analytics.registry_wellKeyed Analytics.registry_isNamed
    Analytics.registry_encodesLiterals
    (show Analytics.registry.schemaFor? "dataset" = some (.named "dataSet") by decide +kernel) rfl
    (show ("ownerId", _) ∈ _ by simp) (show _ = Schema.primitive .number from rfl)
    (show Convention.standard.spelled? .empty " 5 ]]>" = none by decide +kernel)
  obtain rfl := Except.ok.inj (hdocument.symm.trans hdocument')
  obtain ⟨d, hd, hvalue⟩ := hread hsize hdepth
  exact ⟨_, d, hwritten, hd, hvalue⟩

/-- Documents of one type, whose number is written verbatim. -/
def numbered : Profile where
  registry := {
    types := [.object { name := "note", fields := [("x", { schema := .number, verbatim := true })] }]
    documents := [("note", .named "note")] }

/-- A string that spells a number comes back as the number where the field is verbatim, though the
registry is sound, it has no literals, and the text is within the limits. -/
theorem verbatim_string_becomes_number :
    numbered.registry.fault? = none ∧ numbered.registry.WellKeyed ∧
      EncodesLiterals numbered.registry numbered.convention ∧
      numbered.registry.schemaFor? "note" = some (.named "note") ∧
      (∃ o, numbered.registry.resolve (.named "note") = .object o ∧
        ("x", { schema := .number, verbatim := true }) ∈ o.fields) ∧
      numbered.convention.spelled? .empty "5" = none ∧
      ∃ document d v, numbered.encodeTree "note" (.object [("x", .string "5")]) = .ok document ∧
        document.height ≤ numbered.settings.maxDepth ∧
        (write numbered.layout document).utf8ByteSize ≤ numbered.settings.maxDocumentBytes ∧
        numbered.encode "note" (.object [("x", .string "5")]) = .ok (write numbered.layout document) ∧
        numbered.decode .empty "note" (write numbered.layout document) = .ok d ∧
        d.value.get? "x" = some v ∧ v.same (.number (.ofNat 5)) = true ∧ v ≠ .string "5" := by
  have hcheck : ((numbered.encodeTree "note" (.object [("x", .string "5")])).toOption.any
      fun document => isWithin {} document &&
        (numbered.decode .empty "note" (write numbered.layout document)).toOption.any fun d =>
          (d.value.get? "x").any fun v => v.same (.number (.ofNat 5))) = true := by decide +kernel
  obtain ⟨document, hdocument, hcheck⟩ := (Option.any_eq_true _ _).1 hcheck
  obtain ⟨hwithin, hcheck⟩ := Bool.and_eq_true_iff.1 hcheck
  obtain ⟨d, hd, hcheck⟩ := (Option.any_eq_true _ _).1 hcheck
  obtain ⟨v, hv, hsame⟩ := (Option.any_eq_true _ _).1 hcheck
  rw [← eq_ok_iff_toOption] at hdocument hd
  obtain ⟨hsize, hdepth⟩ := le_of_isWithin hwithin
  refine ⟨by decide +kernel, Registry.wellKeyed_of_isWellKeyed (by decide), fun s v hv => ?_,
    by decide +kernel, ⟨_, rfl, List.mem_singleton_self _⟩, by decide +kernel, document, d, v,
    hdocument, hdepth, hsize, encode_eq_ok_iff.2 ⟨_, hdocument, rfl⟩, hd, hv, hsame, ?_⟩
  · have hnone : numbered.registry.literals = [] := by decide +kernel
    exact absurd hv.mem_literals (by rw [hnone]; exact List.not_mem_nil)
  · rintro rfl
    cases hsame

end Profile

end TaggedMarkup
