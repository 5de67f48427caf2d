import TaggedMarkup.Deployment
import TaggedMarkup.Proofs.Reencoding
import TaggedMarkup.Proofs.Written
/-!
# Unpacking what has been packed

A packed definition can always be unpacked, and as a rule packed again. What can stand in the way is
a reference where a type with parts is expected, if it does not resolve, and a summary of
visualizations, if no decoded field takes its place.
-/
namespace TaggedMarkup

open Encoder Markup TaggedMarkup.Tree Deployment

namespace Deployment

/-- The fields of a packed artifact. -/
def packedFields (a : Artifact) (text : String) : Entries Value :=
  Entries.extend (keptFields.filterMap fun key => (a.fields.get? key).map fun v => (key, v))
    ((definition, .string text) :: summaries a.kind a.fields)

/-- The fields of an unpacked artifact. -/
def unpackedFields (a : Artifact) (decoded : Entries Value) : Entries Value :=
  Entries.extend (a.fields.erase definition) (decoded.filter fun f => f.1 ≠ name)

variable {a : Artifact} {text key : String} {decoded : Entries Value} {v : Value}

theorem keys_summaries (kind : String) (fields : Entries Value) :
    (summaries kind fields).keys =
      if kind = Analytics.workbook then ["pivots", "charts", "tables"] else [] := by
  unfold summaries
  split <;> rfl

theorem distinct_added (kind text : String) (fields : Entries Value) :
    Entries.Distinct ((definition, Value.string text) :: summaries kind fields) := by
  refine Entries.distinct_cons.2 ⟨?_, ?_⟩
  · rw [keys_summaries]
    change definition ∉ _
    split <;> decide
  · rw [Entries.Distinct, keys_summaries]
    split <;> decide

theorem sublist_keys_kept (fields : Entries Value) (ks : List String) :
    (Entries.keys (ks.filterMap fun key => (fields.get? key).map fun v => (key, v))).Sublist ks := by
  induction ks with
  | nil => exact List.Sublist.refl _
  | cons k rest ih =>
    rw [List.filterMap_cons]
    cases fields.get? k with
    | none => exact ih.cons _
    | some v => exact ih.cons_cons _

theorem get?_packedFields (a : Artifact) (text key : String) :
    (packedFields a text).get? key =
      (Entries.get? ((definition, .string text) :: summaries a.kind a.fields) key).or
        (if key ∈ keptFields then a.fields.get? key else none) := by
  have hkept : ∀ ks : List String, Entries.get?
      (ks.filterMap fun key => (a.fields.get? key).map fun v => (key, v)) key =
        if key ∈ ks then a.fields.get? key else none := by
    intro ks
    induction ks with
    | nil => rfl
    | cons k rest ih =>
      rw [List.filterMap_cons]
      by_cases hk : k = key
      · subst hk
        cases hv : a.fields.get? k with
        | none => simp [ih, hv]
        | some v => simp [Entries.get?_cons]
      · have hmem : key ∈ k :: rest ↔ key ∈ rest := by simp [Ne.symm hk]
        cases hv : a.fields.get? k with
        | none => simp [ih, hmem]
        | some v => simp [Entries.get?_cons, hk, ih, hmem]
  rw [packedFields, Entries.get?_extend (distinct_added a.kind text a.fields), hkept]

theorem distinct_packedFields : (packedFields a text).Distinct :=
  Entries.distinct_extend (List.Nodup.sublist (sublist_keys_kept a.fields keptFields) (by decide)) _

theorem get?_packedFields_definition :
    (packedFields a text).get? definition = some (.string text) := by
  rw [get?_packedFields, Entries.get?_cons, if_pos rfl]
  rfl

theorem get?_packedFields_name : (packedFields a text).get? name = a.fields.get? name := by
  have hnone : Entries.get? ((definition, Value.string text) :: summaries a.kind a.fields) name =
      none := by
    rw [Entries.get?_eq_none_iff, Entries.keys_cons, keys_summaries]
    change name ∉ definition :: _
    split <;> decide
  rw [get?_packedFields, hnone, if_pos (by decide)]
  rfl

theorem get?_unpackedFields (hd : decoded.Distinct) :
    (unpackedFields a decoded).get? key =
      (if key = name then none else decoded.get? key).or
        (if key = definition then none else a.fields.get? key) := by
  rw [unpackedFields, Entries.get?_extend (hd.filter _),
    Entries.get?_filter decoded (fun key => decide (key ≠ name)), Entries.get?_erase]
  by_cases hname : key = name <;> by_cases hdefinition : key = definition <;>
    simp [hname, hdefinition]

theorem keyed_unpackedFields (ha : a.value.Keyed) (hd : (Value.object decoded).Keyed) :
    (Value.object (unpackedFields a decoded)).Keyed := by
  have hfields : (Value.object a.fields).Keyed := ha.object_fields
  refine .object (Entries.distinct_extend (hfields.distinct.filter _) _) fun key v hm => ?_
  rcases Entries.mem_extend hm with hm | hm
  · exact hfields.of_mem_fields (List.mem_of_mem_filter hm)
  · exact hd.of_mem_fields (List.mem_of_mem_filter hm)

theorem keyed_of_mem_summaryEntries {case : String} {items : List Value} {start : Nat}
    (hm : (key, v) ∈ summaryEntries case items start) : v.Keyed := by
  induction items generalizing start with
  | nil => cases hm
  | cons item rest ih =>
    rw [summaryEntries] at hm
    split at hm
    · rcases List.mem_cons.1 hm with he | hm
      · obtain ⟨-, rfl⟩ := Prod.mk.inj he
        refine Value.keyed_of_isKeyed _ ?_
        simp [summaryEntry, Value.isKeyed, Value.haveKeyed]
      · exact ih hm
    · exact ih hm

theorem keyed_summary (fields : Entries Value) (list case title : String) :
    (summary fields list case title).Keyed := by
  refine .object (List.nodup_singleton _) fun key v hm => ?_
  obtain ⟨-, rfl⟩ := Prod.mk.inj (List.mem_singleton.1 hm)
  refine .object (Entries.distinct_ofPairs _) fun id v hm => ?_
  exact (Entries.mem_extend hm).elim nofun keyed_of_mem_summaryEntries

theorem keyed_packedFields (ha : a.value.Keyed) (text : String) :
    (Value.object (packedFields a text)).Keyed := by
  refine .object distinct_packedFields fun key v hm => ?_
  rcases Entries.mem_extend hm with hm | hm
  · obtain ⟨key', -, hv⟩ := List.mem_filterMap.1 hm
    obtain ⟨v', hv', he⟩ := Option.map_eq_some_iff.1 hv
    obtain ⟨rfl, rfl⟩ := Prod.mk.inj he
    exact ha.object_fields.of_mem_fields (Entries.mem_of_get?_eq_some hv')
  · rcases List.mem_cons.1 hm with he | hm
    · obtain ⟨-, rfl⟩ := Prod.mk.inj he
      exact .string text
    · unfold summaries at hm
      split at hm
      · simp only [List.mem_cons, Prod.mk.injEq, List.not_mem_nil, or_false] at hm
        obtain ⟨-, rfl⟩ | ⟨-, rfl⟩ | ⟨-, rfl⟩ := hm <;> exact keyed_summary _ _ _ _
      · cases hm

/-- What is unpacked of a packed artifact: a decoded field, one that belongs to the instance, or a
summary that no decoded field takes the place of. -/
theorem mem_unpackedFields (hd : decoded.Distinct)
    (hm : (key, v) ∈ unpackedFields (a.withValue (.object (packedFields a text))) decoded) :
    (key, v) ∈ decoded ∨ key ∈ instanceFields a.kind ∨
      a.kind = Analytics.workbook ∧ key ∈ ["pivots", "charts"] ∧ key ∉ decoded.keys := by
  have hdistinct :
      (unpackedFields (a.withValue (.object (packedFields a text))) decoded).Distinct :=
    Entries.distinct_extend (distinct_packedFields.filter _) _
  by_cases hinstance : key ∈ instanceFields a.kind
  · exact .inr (.inl hinstance)
  · have hname : key ≠ name := by
      rintro rfl
      exact hinstance (by simp [instanceFields, keptFields])
    have hdefinition : key ≠ definition := by
      rintro rfl
      exact hinstance (by simp [instanceFields])
    have hkept : key ∉ keptFields := fun hk => hinstance (by simp [instanceFields, hk])
    have hget := (Entries.get?_eq_some_iff hdistinct).2 hm
    have hpacked : (a.withValue (.object (packedFields a text))).fields = packedFields a text := rfl
    rw [get?_unpackedFields hd, if_neg hname, if_neg hdefinition, hpacked, get?_packedFields,
      if_neg hkept, Option.or_none, Entries.get?_cons, if_neg (Ne.symm hdefinition)] at hget
    cases hdecoded : decoded.get? key with
    | some w =>
      rw [hdecoded] at hget
      exact .inl (Option.some.inj hget ▸ Entries.mem_of_get?_eq_some hdecoded)
    | none =>
      rw [hdecoded, Option.none_or] at hget
      have hsummary := Entries.mem_keys_of_mem (Entries.mem_of_get?_eq_some hget)
      rw [keys_summaries] at hsummary
      split at hsummary
      · next hworkbook =>
        have htables : key ≠ "tables" := by
          rintro rfl
          exact hinstance (by simp [instanceFields, hworkbook])
        refine .inr (.inr ⟨hworkbook, ?_, Entries.get?_eq_none_iff.1 hdecoded⟩)
        simpa [htables] using hsummary
      · cases hsummary

end Deployment

theorem Analytics.registry_isGrounded : registry.isGrounded = true := by decide +kernel

namespace Profile

variable {p : Profile} {store : Store} {a b : Artifact}

theorem checkKind_eq_ok_iff {u : Unit} : p.checkKind a = .ok u ↔ p.supports a.kind = true := by
  unfold checkKind
  split <;> simp [*]

theorem mapError_eq_ok_iff {α ε ε' : Type} {x : Except ε α} {f : ε → ε'} {v : α} :
    x.mapError f = .ok v ↔ x = .ok v := by
  cases x <;> simp [Except.mapError]

theorem packFields_eq_ok_iff {fields : Entries Value} : p.packFields a = .ok fields ↔
    p.supports a.kind = true ∧ ∃ text, p.encode a.kind (.object (p.definitionBody a)) = .ok text ∧
      packedFields a text = fields := by
  simp only [packFields, bind_eq_ok_iff, checkKind_eq_ok_iff, mapError_eq_ok_iff, pure_eq_ok_iff,
    exists_const, packedFields]

theorem unpackFields_eq_ok_iff {fields : Entries Value} : p.unpackFields store a = .ok fields ↔
    p.supports a.kind = true ∧ ∃ text d, a.field? definition = some (.string text) ∧
      p.decode store a.kind text = .ok d ∧ unpackedFields a d.value.fields = fields := by
  simp only [unpackFields, bind_eq_ok_iff, checkKind_eq_ok_iff, exists_const]
  refine and_congr_right fun _ => ?_
  split
  · next text htext =>
    simp only [htext, bind_eq_ok_iff, mapError_eq_ok_iff, pure_eq_ok_iff, unpackedFields,
      Option.some.injEq, Value.string.injEq, exists_and_left, exists_eq_left']
  · next hnone =>
    refine iff_of_false (by simp) ?_
    rintro ⟨text, -, htext, -⟩
    exact hnone text htext

theorem pack_eq_ok_iff : p.pack a = .ok b ↔
    p.supports a.kind = true ∧ ∃ text, p.encode a.kind (.object (p.definitionBody a)) = .ok text ∧
      b = a.withValue (.object (packedFields a text)) := by
  have hpack : p.pack a = .ok b ↔
      ∃ fields, p.packFields a = .ok fields ∧ b = a.withValue (.object fields) := by
    unfold pack
    cases p.packFields a <;> simp [eq_comm]
  rw [hpack]
  constructor
  · rintro ⟨fields, hfields, rfl⟩
    obtain ⟨hsupports, text, htext, rfl⟩ := packFields_eq_ok_iff.1 hfields
    exact ⟨hsupports, text, htext, rfl⟩
  · rintro ⟨hsupports, text, htext, rfl⟩
    exact ⟨_, packFields_eq_ok_iff.2 ⟨hsupports, text, htext, rfl⟩, rfl⟩

theorem unpack_eq_ok_iff : p.unpack store a = .ok b ↔
    p.supports a.kind = true ∧ ∃ text d, a.field? definition = some (.string text) ∧
      p.decode store a.kind text = .ok d ∧
      b = a.withValue (.object (unpackedFields a d.value.fields)) := by
  have hunpack : p.unpack store a = .ok b ↔
      ∃ fields, p.unpackFields store a = .ok fields ∧ b = a.withValue (.object fields) := by
    unfold unpack
    cases p.unpackFields store a <;> simp [eq_comm]
  rw [hunpack]
  constructor
  · rintro ⟨fields, hfields, rfl⟩
    obtain ⟨hsupports, text, d, htext, hd, rfl⟩ := unpackFields_eq_ok_iff.1 hfields
    exact ⟨hsupports, text, d, htext, hd, rfl⟩
  · rintro ⟨hsupports, text, d, htext, hd, rfl⟩
    exact ⟨_, unpackFields_eq_ok_iff.2 ⟨hsupports, text, d, htext, hd, rfl⟩, rfl⟩

theorem mem_definitionBody {f : String × Value} (hf : f ∈ p.definitionBody a) :
    f ∈ a.fields ∧ f.1 ∉ instanceFields a.kind ∨ ∃ v, a.fields.get? name = some v ∧
      p.declaresName a.kind = true ∧ f = (name, definitionName v) := by
  have hbody : f ∈ a.fields.filter (fun f => f.1 ∉ instanceFields a.kind) →
      f ∈ a.fields ∧ f.1 ∉ instanceFields a.kind := by
    intro hf
    simpa using List.mem_filter.1 hf
  unfold definitionBody at hf
  split at hf
  · next v hv =>
    split at hf
    · next hname =>
      obtain ⟨key, w⟩ := f
      rcases Entries.mem_insert hf with hf | ⟨rfl, rfl⟩
      · exact .inl (hbody hf)
      · exact .inr ⟨v, hv, hname, rfl⟩
    · exact .inl (hbody hf)
  · exact .inl (hbody hf)

theorem name_mem_definitionBody {v : Value} (hv : a.fields.get? name = some v)
    (hname : p.declaresName a.kind = true) :
    (name, definitionName v) ∈ p.definitionBody a := by
  refine Entries.mem_of_get?_eq_some ?_
  simp only [definitionBody, hv, hname, if_true, Entries.get?_insert]

theorem proper_definitionName {v : Value} (hv : Decoder.Proper v) :
    Decoder.Proper (definitionName v) := by
  have htitle : Decoder.Proper (.object [("translationScriptId", v)]) := by
    refine Decoder.proper_object (List.nodup_singleton _) fun key w hm => ?_
    obtain ⟨rfl, rfl⟩ := Prod.mk.inj (List.mem_singleton.1 hm)
    refine ⟨fun name ha => ?_, hv⟩
    rw [show Marker.attributeName? "translationScriptId" = none by decide] at ha
    cases ha
  cases v with
  | object fields => exact hv
  | _ => exact htitle

/-- The definition has the keys and names of the artifact. -/
theorem proper_definitionBody (hk : a.value.Keyed) (hv : a.value.isNamed = true) :
    Decoder.Proper (.object (p.definitionBody a)) := by
  have hfields : Decoder.Proper (.object a.fields) := by
    unfold Artifact.fields
    cases hvalue : a.value with
    | object fields => exact ⟨hvalue ▸ hk, hvalue ▸ hv⟩
    | _ => exact Decoder.proper_nil
  have hfield : ∀ key v, (key, v) ∈ a.fields → _ ∧ Decoder.Proper v := fun key v hm =>
    ⟨(Value.isNamed_object_iff.1 hfields.2 key v hm).1, hfields.1.of_mem_fields hm,
      (Value.isNamed_object_iff.1 hfields.2 key v hm).2⟩
  have hdistinct : (p.definitionBody a).Distinct := by
    have hbody := hfields.1.distinct.filter fun f => decide (f.1 ∉ instanceFields a.kind)
    unfold definitionBody
    split
    · split
      · exact Entries.distinct_insert hbody _ _
      · exact hbody
    · exact hbody
  refine Decoder.proper_object hdistinct fun key v hm => ?_
  rcases mem_definitionBody hm with ⟨hm, -⟩ | ⟨w, hw, -, heq⟩
  · exact hfield key v hm
  · obtain ⟨rfl, rfl⟩ := Prod.mk.inj heq
    have hproper := (hfield _ w (Entries.mem_of_get?_eq_some hw)).2
    refine ⟨fun name ha => ?_, proper_definitionName hproper⟩
    rw [show Marker.attributeName? Deployment.name = none by decide] at ha
    cases ha

section

variable (hr : Refillable (ofRegistry p.registry p.convention)) (hn : p.registry.isNamed = true)
  (hk : a.value.Keyed) (hv : a.value.isNamed = true) (hpack : p.pack a = .ok b)
  (hwithin : ∀ document, p.encodeTree a.kind (.object (p.definitionBody a)) = .ok document →
    isWithin p.settings document = true)

include hr hn hk hv hpack hwithin in
/-- A packed artifact is unpacked into the fields that are decoded of its root element. -/
theorem exists_unpacked (store : Store) : ∃ schema root d,
    p.registry.schemaFor? a.kind = some schema ∧
    (ofRegistry p.registry p.convention).encodeRoot (.object (p.definitionBody a)) schema =
      .ok root ∧
    root.Writable ∧ d = p.decodeRoot store schema root.reread ∧
    (∀ text, b.field? definition = some (.string text) → p.decode store b.kind text = .ok d) ∧
    p.unpack store b = .ok (b.withValue (.object (unpackedFields b d.value.fields))) := by
  obtain ⟨hsupports, text, hencode, rfl⟩ := pack_eq_ok_iff.1 hpack
  obtain ⟨document, hdocument, rfl⟩ := encode_eq_ok_iff.1 hencode
  obtain ⟨hkeyed, hnamed⟩ := proper_definitionBody (p := p) hk hv
  obtain ⟨schema, root, hschema, rfl, hwritable, hlist⟩ :=
    writable_of_encodeTree hr.keyed hn hkeyed hnamed hdocument
  obtain ⟨_, root', hschema', hroot, heq⟩ := encodeTree_eq_ok_iff.1 hdocument
  cases hschema.symm.trans hschema'
  obtain rfl : root = root' := (Prod.mk.inj (List.cons.inj (Tree.map.inj heq)).1).2
  obtain ⟨hsize, hdepth⟩ := le_of_isWithin (hwithin _ hdocument)
  have hdecode : p.decode store a.kind _ = .ok _ :=
    decode_write hwritable hlist hschema hsize hdepth
  have hfield : (a.withValue (.object (packedFields a (write p.layout
      (.map [(Marker.root, root)]))))).field? definition = some (.string _) :=
    get?_packedFields_definition
  refine ⟨schema, root, _, hschema, hroot, hwritable, rfl, fun text htext => ?_, ?_⟩
  · cases hfield.symm.trans htext
    exact hdecode
  · exact unpack_eq_ok_iff.2 ⟨hsupports, _, _, hfield, hdecode, rfl⟩

include hr hn hk hv hpack hwithin in
/-- What is unpacked can be packed, if no reference is missing and no summary is left. -/
theorem exists_packed_again (hg : p.registry.isGrounded = true) {store : Store} {schema : Schema}
    {o : ObjectType} (hschema : p.registry.schemaFor? a.kind = some schema)
    (ho : p.registry.resolve schema = .object o)
    (hground : (Value.object (p.definitionBody a)).isGrounded p.registry (p.convention.finds store)
      (some schema) = true)
    (hsummaries : a.kind = Analytics.workbook →
      ∀ text d, b.field? definition = some (.string text) → p.decode store b.kind text = .ok d →
        "pivots" ∈ d.value.fields.keys ∧ "charts" ∈ d.value.fields.keys) :
    ∃ c d, p.unpack store b = .ok c ∧ p.pack c = .ok d := by
  obtain ⟨schema', root, d, hschema', hroot, hwritable, rfl, hdecode, hunpack⟩ :=
    exists_unpacked hr hn hk hv hpack hwithin store
  cases hschema.symm.trans hschema'
  obtain ⟨hsupports, text, -, rfl⟩ := pack_eq_ok_iff.1 hpack
  have hfills : FillsReencode p.registry p.convention store
      (p.convention.resolveAll store (root.reread.candidates p.convention)) p.settings.keepEmpty
      (fieldCount p.registry) (fieldCount p.registry) := fillsReencode hr hg _
  obtain ⟨back, hback, heach⟩ := exists_decoded_root hr hfills ho
    (proper_definitionBody (p := p) hk hv).1 hground hroot (Decoder.knows_resolveAll _ _ _ _)
  have hvalue : (p.decodeRoot store schema root.reread).value = .object back :=
    decodeDocument_of_object hback
  have hproper : Decoder.Proper (p.decodeRoot store schema root.reread).value :=
    Decoder.proper_decodeDocument hwritable.regular_reread schema
  have hdistinct : Entries.Distinct back := (hvalue ▸ hproper).1.distinct
  rw [hvalue] at hunpack
  have hentry : ∀ f ∈ p.definitionBody ((a.withValue (.object (packedFields a text))).withValue
      (.object (unpackedFields (a.withValue (.object (packedFields a text))) back))),
      ∃ entry, EncodesEntry (ofRegistry p.registry p.convention) (some o) .root f entry := by
    rintro ⟨key, v⟩ hm
    rcases mem_definitionBody hm with ⟨hm, hinstance⟩ | ⟨w, hw, hname, heq⟩
    · rcases mem_unpackedFields hdistinct hm with hm | hm | ⟨hkind, hkey, hnone⟩
      · exact heach _ hm _
      · exact absurd hm hinstance
      · obtain ⟨hpivots, hcharts⟩ := hsummaries hkind text _ get?_packedFields_definition
          (hdecode _ get?_packedFields_definition)
        rw [hvalue] at hpivots hcharts
        rcases List.mem_pair.1 hkey with rfl | rfl
        · exact absurd hpivots hnone
        · exact absurd hcharts hnone
    · have hne : Deployment.name ≠ Marker.untypedCase := by decide
      rw [heq]
      refine hr.exists_entry_of_encodeRoot ho hroot (name_mem_definitionBody ?_ hname) hne
      have hget : Entries.get? (unpackedFields (a.withValue (.object (packedFields a text))) back)
          Deployment.name = some w := hw
      rw [get?_unpackedFields hdistinct, if_pos rfl, if_neg (by decide), Option.none_or] at hget
      exact get?_packedFields_name.symm.trans hget
  obtain ⟨t, ht⟩ := hr.exists_encodeRoot ho hentry
  exact ⟨_, _, hunpack, pack_eq_ok_iff.2 ⟨hsupports, _,
    encode_eq_ok_iff.2 ⟨_, encodeTree_eq_ok_iff.2 ⟨schema, t, hschema, ht, rfl⟩, rfl⟩, rfl⟩⟩

end

/-- What is packed can be unpacked. It can be packed again if every reference that stands for a part
resolves, and if a workbook has visualizations in place of their summaries. -/
theorem unpack_pack (settings : Settings) {a b : Artifact} (hk : a.value.Keyed)
    (hv : a.value.isNamed = true) (hpack : Profile.pack { settings := settings } a = .ok b)
    (hwithin : ∀ document, Profile.encodeTree { settings := settings } a.kind
      (.object (Profile.definitionBody { settings := settings } a)) = .ok document →
        isWithin settings document = true) (store : Store) :
    ∃ c, Profile.unpack { settings := settings } store b = .ok c ∧
      ((Value.object (Profile.definitionBody { settings := settings } a)).isGrounded
          Analytics.registry (Convention.standard.finds store)
          (Analytics.registry.schemaFor? a.kind) = true →
        (a.kind = Analytics.workbook → ∀ text d, b.field? definition = some (.string text) →
          Profile.decode { settings := settings } store b.kind text = .ok d →
            "pivots" ∈ d.value.fields.keys ∧ "charts" ∈ d.value.fields.keys) →
        ∃ d, Profile.pack { settings := settings } c = .ok d) := by
  have hr : Refillable (ofRegistry Analytics.registry .standard) :=
    (Analytics.encoder_steady store).refillable
  obtain ⟨schema, root, d, hschema, -, -, -, -, hunpack⟩ := exists_unpacked hr
    Analytics.registry_isNamed hk hv hpack hwithin store
  refine ⟨_, hunpack, fun hground hsummaries => ?_⟩
  obtain ⟨o, ho⟩ := Analytics.exists_object_of_schemaFor? hschema
  rw [show Analytics.registry.schemaFor? a.kind = some schema from hschema] at hground
  obtain ⟨c, d, hc, hd⟩ := exists_packed_again hr Analytics.registry_isNamed hk hv hpack hwithin
    Analytics.registry_isGrounded hschema ho hground hsummaries
  exact ⟨d, Except.ok.inj (hunpack.symm.trans hc) ▸ hd⟩

/-- A check of a packed artifact and of what is decoded of its definition. -/
def packsWith (check : Artifact → Decoded → Bool) (a : Artifact) : Bool :=
  a.value.isKeyed && a.value.isNamed && Profile.supports {} a.kind &&
    (Analytics.registry.schemaFor? a.kind).any fun schema =>
      (Profile.encodeTree {} a.kind (.object (Profile.definitionBody {} a))).toOption.any
        fun document => isWithin {} document && (document.lookup? Marker.root).any fun root =>
          check (a.withValue (.object (packedFields a (write ⟨true, 2⟩ document))))
            (decodeRoot {} .empty schema root.reread)

theorem exists_of_packsWith {check : Artifact → Decoded → Bool} (h : packsWith check a = true) :
    a.value.Keyed ∧ a.value.isNamed = true ∧
      (∀ document, Profile.encodeTree {} a.kind (.object (Profile.definitionBody {} a)) =
        .ok document → isWithin {} document = true) ∧
      ∃ b d, Profile.pack {} a = .ok b ∧
        (∀ text, b.field? definition = some (.string text) →
          Profile.decode {} .empty b.kind text = .ok d) ∧
        Profile.unpack {} .empty b =
          .ok (b.withValue (.object (unpackedFields b d.value.fields))) ∧ check b d = true := by
  simp only [packsWith, Bool.and_eq_true, Option.any_eq_true] at h
  obtain ⟨⟨⟨hk, hv⟩, hsupports⟩, schema, hschema, document, hdocument, hwithin, root, hroot,
    hcheck⟩ := h
  have hk := Value.keyed_of_isKeyed _ hk
  rw [← eq_ok_iff_toOption] at hdocument
  have hlimits : ∀ document, Profile.encodeTree {} a.kind (.object (Profile.definitionBody {} a)) =
      .ok document → isWithin {} document = true := fun document h =>
    Except.ok.inj (hdocument.symm.trans h) ▸ hwithin
  have hpack := pack_eq_ok_iff.2 ⟨hsupports, _, encode_eq_ok_iff.2 ⟨_, hdocument, rfl⟩, rfl⟩
  obtain ⟨schema', root', d, hschema', hroot', -, rfl, hdecode, hunpack⟩ := exists_unpacked
    (Analytics.encoder_steady .empty).refillable Analytics.registry_isNamed hk hv hpack hlimits
    .empty
  obtain ⟨schema'', root'', hschema'', hroot'', rfl⟩ := encodeTree_eq_ok_iff.1 hdocument
  cases hschema.symm.trans hschema'
  cases hschema.symm.trans hschema''
  cases hroot'.symm.trans hroot''
  obtain rfl : root' = root := Option.some.inj hroot
  exact ⟨hk, hv, hlimits, _, _, hpack, hdecode, hunpack, hcheck⟩

theorem unpack_pack_workbook : ∃ b c d,
    Profile.pack {} ⟨⟨["book"]⟩, "workbook", .object [("name", .string "Book"),
      ("pivots", .list [.object [("pivot", .object [("scriptId", .string "p")])]]),
      ("charts", .list [.object [("chart", .object [])]])]⟩ = .ok b ∧
    Profile.unpack {} .empty b = .ok c ∧ Profile.pack {} c = .ok d := by
  generalize ha : (⟨⟨["book"]⟩, "workbook", .object [("name", .string "Book"),
    ("pivots", .list [.object [("pivot", .object [("scriptId", .string "p")])]]),
    ("charts", .list [.object [("chart", .object [])]])]⟩ : Artifact) = a
  have hcheck : packsWith (fun _ d =>
      d.value.fields.contains "pivots" && d.value.fields.contains "charts") a = true := by
    subst ha
    decide +kernel
  obtain ⟨hk, hv, hlimits, b, d, hpack, hdecode, -, hfields⟩ := exists_of_packsWith hcheck
  obtain ⟨hpivots, hcharts⟩ := Bool.and_eq_true_iff.1 hfields
  obtain ⟨c, hunpack, hagain⟩ := unpack_pack {} hk hv hpack hlimits .empty
  obtain ⟨e, he⟩ := hagain (by subst ha; decide +kernel) fun _ text d' htext hd' => by
    obtain rfl := Except.ok.inj ((hdecode text htext).symm.trans hd')
    exact ⟨Entries.contains_iff.1 hpivots, Entries.contains_iff.1 hcharts⟩
  exact ⟨b, c, e, hpack, hunpack, he⟩

/-- What comes back is refused where the definition in it has no tree. -/
theorem exists_refused {a : Artifact} (hcheck : packsWith (fun b d => (Profile.encodeTree {} b.kind
      (.object (Profile.definitionBody {} (b.withValue (.object
        (unpackedFields b d.value.fields)))))).toOption.isNone) a = true) :
    ∃ b c, Profile.pack {} a = .ok b ∧ Profile.unpack {} .empty b = .ok c ∧
      ∀ d, Profile.pack {} c ≠ .ok d := by
  obtain ⟨-, -, -, b, d, hpack, -, hunpack, hnone⟩ := exists_of_packsWith hcheck
  refine ⟨b, _, hpack, hunpack, fun again hagain => ?_⟩
  obtain ⟨-, text, hencode, -⟩ := pack_eq_ok_iff.1 hagain
  obtain ⟨document, hdocument, -⟩ := encode_eq_ok_iff.1 hencode
  have hsome : (Profile.encodeTree {} b.kind _).toOption = some document :=
    eq_ok_iff_toOption.1 hdocument
  rw [Option.isNone_iff_eq_none] at hnone
  exact Option.some_ne_none _ (hsome.symm.trans hnone)

/-- A dataset whose columns are a reference that is found nowhere. -/
def dangling : Artifact :=
  ⟨⟨["a"]⟩, "dataset", .object [("columns", .reference ⟨⟨["a", "b", "c"]⟩⟩)]⟩

/-- A reference that is found nowhere keeps its place as a text, which is no list. -/
theorem second_pack_refused :
    ∃ b c, Profile.pack {} dangling = .ok b ∧ Profile.unpack {} .empty b = .ok c ∧
      ∀ d, Profile.pack {} c ≠ .ok d :=
  exists_refused (by decide +kernel)

/-- A workbook without visualizations. -/
def unillustrated : Artifact := ⟨⟨["a"]⟩, "workbook", .object []⟩

/-- The summaries that a workbook is given stay where its definition has no visualizations, and they
are no lists either. -/
theorem summaries_refused :
    ∃ b c, Profile.pack {} unillustrated = .ok b ∧ Profile.unpack {} .empty b = .ok c ∧
      ∀ d, Profile.pack {} c ≠ .ok d :=
  exists_refused (by decide +kernel)

end Profile

end TaggedMarkup
