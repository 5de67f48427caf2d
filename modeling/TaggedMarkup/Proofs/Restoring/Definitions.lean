import TaggedMarkup.Proofs.Restoring.Objects
import TaggedMarkup.Proofs.Written
import TaggedMarkup.Reference.Collection
import TaggedMarkup.Schema.Check
/-!
# Definitions that come back

A definition that is written and read again comes back with all that it holds, for every registry whose
defaults have names for their attributes. Its root may be empty or have nothing but character data.
-/
namespace TaggedMarkup

open Encoder Markup TaggedMarkup.Tree

variable {e : Encoder} {store : Store} {res : Resolutions} {u : ObjectType} {schema : Schema}
  {fields : Entries Value} {t : Tree} {v : Value}

/-! ## Roots -/

namespace Decoder

variable {d : Decoder}

theorem decodeDocument_of_hasText {root : Tree} (h : d.decode root (some schema) = v)
    (hv : v.hasText = true) (hne : v ≠ .string "") :
    d.decodeDocument root schema = .object [(Marker.text, v)] := by
  unfold decodeDocument
  split
  · next fields hfields =>
    rw [← h, hfields] at hv
    cases hv
  · next hempty => exact absurd (h.symm.trans hempty) hne
  · rw [h]

/-- A text in place of an object is read as it would be without a type. -/
theorem scalar_of_object (hu : d.registry.resolve schema = .object u) {text : String}
    (hne : text ≠ "") : d.scalar text (some schema) = d.scalar text none := by
  have hempty : text.isEmpty = false := by simpa using hne
  unfold scalar literal
  rw [Option.map_some, hu]
  simp only [hempty, Bool.false_eq_true, if_false, Option.map_none]

theorem scalar_empty_of_object (hu : d.registry.resolve schema = .object u) :
    d.scalar "" (some schema) = .object [] := by
  have hparse : d.convention.parse? "" = none := rfl
  unfold scalar reference? literal
  rw [hparse, Option.map_some, hu]
  rfl

end Decoder

section

variable (hr : e.registry.WellKeyed) (hu : e.registry.resolve schema = .object u)

include hr hu

/-- A root element without parts holds character data or nothing. -/
theorem restores_text_root {path : Path} {entries : Entries Tree} (hd : fields.Distinct)
    (hf : Value.haveFaithful e store fields (some u) = true)
    (hl : e.Lays (some u) path false fields entries) (hparts : hasParts entries = false)
    (hknows : (e.reader res).Knows store (Tree.map entries).reread) :
    Restores e res (.body (some u)) (.object fields)
      ((e.reader res).decodeDocument (Tree.map entries).reread schema) := by
  have ho : ∀ w, some u = some w → w.WellKeyed := fun w hw => Option.some.inj hw ▸ hr.of_resolve hu
  have htext : ∀ key v, (key, v) ∈ fields → key = Marker.text := by
    intro key v hv
    by_contra hne
    rw [hasParts_of_lays ho hl (.inr ⟨_, hv, hne⟩)] at hparts
    cases hparts
  have hreread : (Tree.map entries).reread = .text (readText entries) := by
    rw [reread_map, hparts, if_neg Bool.false_ne_true]
  rw [hreread] at hknows ⊢
  by_cases hfield : Marker.text ∈ fields.keys
  · obtain ⟨v, hv⟩ := Entries.exists_of_mem_keys hfield
    have hdata : v.isFaithfulText e store = true := Value.haveFaithful_iff.1 hf _ _ hv
    obtain ⟨text, hwire, hne, hsettle⟩ := settle_of_isFaithfulText hdata
    have hread := readText_of_lays ho hd hl (by rwa [ownFields_false]) hwire
    rw [hread] at hknows ⊢
    have hdecode : (e.reader res).decode (.text text) (some schema) = v := by
      rw [Decoder.decode, Decoder.scalar_of_object hu hne, scalar_eq_settle hknows, hsettle]
    have hstring : v ≠ .string "" := by
      rintro rfl
      exact hne (Option.some.inj hwire).symm
    rw [Decoder.decodeDocument_of_hasText hdecode (hasText_of_wireText? hwire) hstring]
    refine .body (List.nodup_singleton _) (fun key hkey => ?_) (fun key v' w hv' hw => ?_)
      fun key w hw hmissing => ?_
    · obtain ⟨v', hv'⟩ := Entries.exists_of_mem_keys hkey
      exact htext key v' hv' ▸ List.mem_singleton_self _
    · obtain ⟨rfl, rfl⟩ := Prod.mk.inj (List.mem_singleton.1 hw)
      have hsame := (Entries.get?_eq_some_iff hd).2 hv'
      rw [(Entries.get?_eq_some_iff hd).2 hv] at hsame
      obtain rfl := Option.some.inj hsame
      exact .scalar _ (hasText_of_wireText? hwire)
    · obtain ⟨rfl, -⟩ := Prod.mk.inj (List.mem_singleton.1 hw)
      exact absurd hfield hmissing
  · have hnil : fields = [] := by
      refine List.eq_nil_iff_forall_not_mem.2 fun f hf => hfield ?_
      exact htext f.1 f.2 hf ▸ Entries.mem_keys_of_mem hf
    have hempty : readText entries = "" := readText_eq_empty ho hl (by rwa [ownFields_false])
    have hdecode : (e.reader res).decode (.text "") (some schema) = .object [] := by
      rw [Decoder.decode, Decoder.scalar_empty_of_object hu]
    rw [hempty, Profile.decodeDocument_of_object hdecode, hnil]
    exact .body List.nodup_nil (by simp) (by simp) (by simp)

/-- What is read of a root element restores the definition. -/
theorem restores_root (ht : e.registry.Trimmed) (hs : e.registry.VerbatimStrings)
    (hk : (Value.object fields).Keyed)
    (hcase : ∀ case, untypedCase? fields (some u) = some case → Unpadded case)
    (hf : Value.haveFaithful e store fields (some u) = true)
    (h : e.encodeRoot (.object fields) schema = .ok t) (hknows : (e.reader res).Knows store t.reread) :
    Restores e res (.body (some u)) (.object fields)
      ((e.reader res).decodeDocument t.reread schema) := by
  have hplain := plainType?_of_object hu
  obtain ⟨entries, hl, rfl⟩ := (encodeRoot_object_eq_ok_iff hr hu).1 h
  have hknown : Known e (some u) := fun _ => mem_types_of_plainType? hplain
  have hentries := fun hknows' => (returns_of_keyed hr ht hs hk).2 fields (some u) .root _ entries
    res rfl hf hknown hl hknows'
  by_cases hbare : untypedCase? fields (some u) = none ∧ u.tag = none ∧ hasParts entries = false
  · obtain ⟨hnone, htag, hparts⟩ := hbare
    have htag : (some u).bind ObjectType.tag = none := htag
    rw [hnone] at hl hknows ⊢
    rw [finishObject_none htag, if_neg (by simp)] at hknows ⊢
    exact restores_text_root hr hu hk.distinct hf hl hparts hknows
  · have hparts : untypedCase? fields (some u) = none → (some u).bind ObjectType.tag = none →
        hasParts entries = true ∧
          ¬ (false = true ∧ (entries.all fun t => t.2.isPlaceholder) = true) :=
      fun hnone htag => ⟨by simpa using fun hparts => hbare ⟨hnone, htag, hparts⟩, by simp⟩
    obtain ⟨back, hback, hrestores⟩ := exists_restored_element hr ht hk.distinct hplain hl hcase
      hparts hentries hknows
    rw [Profile.decodeDocument_of_object hback]
    exact hrestores

end

/-! ## Definitions -/

theorem Analytics.registry_trimmed : registry.Trimmed :=
  ⟨(encoder_steady .empty).tag, (encoder_steady .empty).case⟩

namespace Profile

variable {p : Profile} {kind : String}

/-- Within the limits nothing that comes back is lost or altered by writing and reading, where
attributes have names in the definition and in the defaults of its types. -/
theorem decode_encode_restores (hr : p.registry.WellKeyed) (ht : p.registry.Trimmed)
    (hs : p.registry.VerbatimStrings) (hn : p.registry.isNamed = true)
    (hkeep : p.settings.keepEmpty = false) (hschema : p.registry.schemaFor? kind = some schema)
    (hu : p.registry.resolve schema = .object u) (hk : (Value.object fields).Keyed)
    (hv : (Value.object fields).isNamed = true)
    (hcase : ∀ case, untypedCase? fields (some u) = some case → Unpadded case)
    (hf : Value.haveFaithful (ofRegistry p.registry p.convention) store fields (some u) = true)
    {text : String} (h : p.encode kind (.object fields) = .ok text)
    (hsize : text.utf8ByteSize ≤ p.settings.maxDocumentBytes)
    (hdepth : ∀ document, p.encodeTree kind (.object fields) = .ok document →
      document.height ≤ p.settings.maxDepth) :
    ∃ d res, p.decode store kind text = .ok d ∧
      Restores (ofRegistry p.registry p.convention) res (.body (some u)) (.object fields) d.value := by
  obtain ⟨document, hdocument, rfl⟩ := encode_eq_ok_iff.1 h
  obtain ⟨schema', root, hschema', hroot, rfl⟩ := encodeTree_eq_ok_iff.1 hdocument
  cases hschema.symm.trans hschema'
  obtain ⟨_, _, -, hdocument', hwritable, hlist⟩ := writable_of_encodeTree hr hn hk hv hdocument
  obtain rfl := (Prod.mk.inj (List.cons.inj (Tree.map.inj hdocument')).1).2
  obtain ⟨res, hvalue, hknows, -⟩ := decodeRoot_value hkeep store schema root.reread
  refine ⟨_, res, decode_write hwritable hlist hschema hsize (hdepth _ hdocument), ?_⟩
  rw [hvalue]
  exact restores_root (e := ofRegistry p.registry p.convention) hr hu ht hs hk hcase hf hroot hknows

/-- A dataset whose name is a text of a collection. -/
def labelledFields : Entries Value := [
  ("name", .object [("translationScriptId",
    .reference (Convention.standard.reference ⟨"custcollectiontranslations_a", "b"⟩))]),
  ("columns", .list [.object [
    ("alias", .string " 5 "), ("columnId", .number (.ofNat 5)),
    ("field", .object [("fieldReference", .null)])]]),
  ("note", .object [
    ("@_a", .string "1"), ("#text", .string "b"), ("flags", .list [.bool true, .string "5"])])]

/-- The collection that the name stands in. -/
def labels : Store := ⟨[Convention.standard.collection "custcollectiontranslations_a" ["b"]]⟩

theorem decode_encode_restores_labelled :
    ∃ text d res u, Profile.encode {} "dataset" (.object labelledFields) = .ok text ∧
      Profile.decode {} labels "dataset" text = .ok d ∧
      Restores (ofRegistry Analytics.registry .standard) res (.body (some u)) (.object labelledFields)
        d.value := by
  have hcheck : ((Profile.encodeTree {} "dataset" (.object labelledFields)).toOption.any
      (isWithin {})) = true := by decide +kernel
  obtain ⟨document, hdocument, hwithin⟩ := (Option.any_eq_true _ _).1 hcheck
  rw [← eq_ok_iff_toOption] at hdocument
  obtain ⟨hsize, hdepth⟩ := le_of_isWithin hwithin
  have htext := encode_eq_ok_iff.2 ⟨document, hdocument, rfl⟩
  obtain ⟨d, res, hd, hrestores⟩ := decode_encode_restores (p := {}) Analytics.registry_wellKeyed
    Analytics.registry_trimmed Analytics.registry_verbatimStrings Analytics.registry_isNamed rfl
    (show Analytics.registry.schemaFor? "dataset" = some (.named "dataSet") by decide +kernel) rfl
    (Value.keyed_of_isKeyed _ (by decide +kernel)) (by decide +kernel) (by decide +kernel)
    (show Value.haveFaithful _ labels _ _ = true by decide +kernel) htext hsize
    (fun other hother => by rwa [← Except.ok.inj (hdocument.symm.trans hother)])
  exact ⟨_, d, res, _, htext, hd, hrestores⟩

/-- Documents of one type, whose field is filled in with an attribute that has no name. -/
def misnamed : Profile where
  registry := {
    types := [.object { name := "note", fields := [("x", {
      schema := .unknown, defaultValue := some (.object [("@_a b", .string "1")]) })] }]
    documents := [("note", .named "note")] }

/-- The default of a field breaks the tag that it stands in, though the registry is sound, the
definition comes back field by field, and its text is within the limits. -/
theorem default_breaks_tag :
    misnamed.registry.fault? = none ∧ misnamed.registry.WellKeyed ∧ misnamed.registry.Trimmed ∧
      misnamed.registry.VerbatimStrings ∧ misnamed.settings.keepEmpty = false ∧
      ∃ u document text, misnamed.registry.resolve (.named "note") = .object u ∧
        Value.haveFaithful (ofRegistry misnamed.registry misnamed.convention) .empty
          [("y", .string "kept")] (some u) = true ∧
        misnamed.encodeTree "note" (.object [("y", .string "kept")]) = .ok document ∧
        document.height ≤ misnamed.settings.maxDepth ∧
        misnamed.encode "note" (.object [("y", .string "kept")]) = .ok text ∧
        text.utf8ByteSize ≤ misnamed.settings.maxDocumentBytes ∧
        ∀ d, misnamed.decode .empty "note" text ≠ .ok d := by
  have hcheck : ((misnamed.encodeTree "note" (.object [("y", .string "kept")])).toOption.any
      fun document => isWithin {} document &&
        (misnamed.decode .empty "note" (write misnamed.layout document)).toOption.isNone) = true := by
    decide +kernel
  obtain ⟨document, hdocument, hcheck⟩ := (Option.any_eq_true _ _).1 hcheck
  rw [← eq_ok_iff_toOption] at hdocument
  obtain ⟨hwithin, hnone⟩ := Bool.and_eq_true_iff.1 hcheck
  obtain ⟨hsize, hdepth⟩ := le_of_isWithin hwithin
  refine ⟨by decide +kernel, Registry.wellKeyed_of_isWellKeyed (by decide), ⟨?_, ?_⟩, ?_, rfl, _,
    document, _, rfl, by decide +kernel, hdocument, hdepth, encode_eq_ok_iff.2 ⟨_, hdocument, rfl⟩,
    hsize, fun d hd => ?_⟩
  · intro o tag ho htag
    obtain rfl := TypeDef.object.inj (List.mem_singleton.1 ho)
    cases htag
  · intro v case schema hv _
    exact absurd (List.mem_singleton.1 hv) (by simp)
  · intro o name f ho hf hverbatim
    obtain rfl := TypeDef.object.inj (List.mem_singleton.1 ho)
    obtain ⟨-, rfl⟩ := Prod.mk.inj (List.mem_singleton.1 hf)
    cases hverbatim
  · rw [hd] at hnone
    cases hnone

end Profile

end TaggedMarkup
