import TaggedMarkup.Proofs.Encoding.Coverage
import TaggedMarkup.Proofs.Stability.Rewriting
import TaggedMarkup.Reference.Collection
/-!
# Definitions that are encoded again

With empty elements kept, a decoded definition is encoded as a text that decoding and encoding give
back byte for byte, if its root element is stable and no case in it has a blank at an end.
-/
namespace TaggedMarkup

open Encoder Markup TaggedMarkup.Tree

variable {r : Registry} {c : Convention} {store : Store} {res : Resolutions}
  {fields : Entries Value} {t : Tree}

theorem Decoder.exists_decodeDocument (d : Decoder) (root : Tree) (schema : Schema) :
    ∃ fields, d.decodeDocument root schema = .object fields := by
  unfold decodeDocument
  split
  · exact ⟨_, rfl⟩
  · exact ⟨_, rfl⟩
  · exact ⟨_, rfl⟩

/-- What fields are filled in with is written again. -/
theorem fillsRewrite (h : Refillable (ofRegistry r c)) (hs : r.VerbatimStrings)
    (hl : r.isLegible = true) (chain : Nat) :
    FillsRewrite r c store res chain (fieldCount r) := by
  induction chain with
  | zero =>
    intro o name f path t ho hf ht
    cases ht
  | succ chain ih =>
    intro o name f path t ho hf ht hholds
    have hkeyed := h.keyed.synthesizeField (h.keyed.objects o ho) hf
    have hlegible := Registry.isLegible_synthesizeField hl ho hf (c.locates store)
    have halike : (chained r c (fieldCount r)).FillsAlike := fillsAlike_ofRegistry r c
    have htidy : Tidy (chained r c (fieldCount r)) store true (.value (some f.schema))
        (r.synthesizeField f) :=
      let ⟨hnone, hwordless⟩ := Registry.isLegible_synthesizeField_none hl ho hf
      .of_isWordless hkeyed hnone hwordless _
    refine (rewrites_of_keyed h hs ih halike hkeyed hlegible).1 _ _ _ _ htidy ht
      (fun hverbatim => ?_) hholds
    rw [Option.map_some, hs o name f ho hf hverbatim]

/-- A root element is written again. -/
theorem exists_root_again (h : Refillable (ofRegistry r c)) (hs : r.VerbatimStrings)
    (hl : r.isLegible = true) {schema : Schema} {u : ObjectType}
    (ho : r.resolve schema = .object u) (hk : (Value.object fields).Keyed)
    (hlegible : (Value.object fields).isLegible (c.locates store) = true)
    (htidy : Tidy (ofRegistry r c) store true (.value (some schema)) (.object fields))
    (ht : (ofRegistry r c).encodeRoot (.object fields) schema = .ok t)
    (hholds : Holds (ofRegistry r c) store res (some schema) t) :
    ∃ back, ((ofRegistry r c).decoder res true).decode t.reread (some schema) = .object back ∧
      ∃ again, (ofRegistry r c).encodeRoot (.object back) schema = .ok again ∧ Alike again t := by
  have hfills : FillsRewrite r c store res (fieldCount r) (fieldCount r) := fillsRewrite h hs hl _
  have hentries := (rewrites_of_keyed h hs hfills (fillsAlike_ofRegistry r c) hk hlegible).2
  obtain ⟨entries, hlays, rfl⟩ := (encodeRoot_object_eq_ok_iff h.keyed ho).1 ht
  rcases rewritesObject_or h (plainType?_of_object ho) hk hlegible hentries htidy hlays (by simp)
    hholds with ⟨hcollapse, -⟩ | ⟨hnone, -⟩ | ⟨back, hback, hagain⟩
  · cases hcollapse
  · cases hnone
  · obtain ⟨laid, hlaid, halike⟩ := hagain .root
    exact ⟨back, hback, _, (encodeRoot_object_eq_ok_iff h.keyed ho).2 ⟨laid, hlaid, rfl⟩, halike⟩

namespace Profile

/-- The root element of a definition of a kind is stable. -/
def isStable (p : Profile) (store : Store) (kind : String) (document : Tree) : Bool :=
  (document.lookup? Marker.root).any fun root =>
    root.isStable (ofRegistry p.registry p.convention) store (p.registry.schemaFor? kind)

end Profile

namespace Profile

section

variable (settings : Settings) (hkeep : settings.keepEmpty = true) {store : Store}
  {kind text : String} (hnames : ∀ token ∈ Token.ofDocument text, token.Named) {v : Decoded}
  (hv : Profile.decode { settings := settings } store kind text = .ok v)

include hkeep hnames hv

/-- What has been decoded has a root element that can be written. -/
theorem exists_root_of_decode_keeping {t : Tree}
    (ht : Profile.encodeTree { settings := settings } kind v.value = .ok t) :
    ∃ schema first, Analytics.registry.schemaFor? kind = some schema ∧
      (ofRegistry Analytics.registry .standard).encodeRoot v.value schema = .ok first ∧
      t = .map [(Marker.root, first)] ∧ Decoder.Proper v.value ∧
      v.value.isLegible (Convention.standard.locates store) = true ∧
      Tidy (ofRegistry Analytics.registry .standard) store true (.value (some schema)) v.value ∧
      first.Writable ∧ first.isList = false ∧ ∃ fields, v.value = .object fields := by
  obtain ⟨schema, document, root, hschema, -, hread, hroot, rfl⟩ := decode_eq_ok_iff.1 hv
  obtain ⟨_, first, hschema', hfirst, rfl⟩ := encodeTree_eq_ok_iff.1 ht
  cases hschema.symm.trans hschema'
  have hregular := regular_of_documentRoot (regular_of_read hnames hread) hroot
  have hproper : Decoder.Proper (decodeRoot { settings := settings } store schema root).value :=
    Decoder.proper_decodeDocument hregular schema
  have hsound : Decoder.Sound ⟨Analytics.registry, .standard, _, settings.keepEmpty⟩ store :=
    Decoder.sound_resolveAll _ _ _ (root.candidates .standard)
  obtain ⟨o, ho⟩ := Analytics.exists_object_of_schemaFor? hschema
  have htidy : Tidy (ofRegistry Analytics.registry .standard) store true (.value (some schema))
      (decodeRoot { settings := settings } store schema root).value := by
    rw [decodeRoot, decoder, hkeep]
    exact Tidy.decodeDocument (Analytics.encoder_steady store).keyed hsound hregular ho
  obtain ⟨hwritable, hlist⟩ := writable_of_proper hproper hfirst
  exact ⟨schema, first, hschema, hfirst, rfl, hproper,
    Decoder.isLegible_decodeDocument hsound hregular schema, htidy, hwritable, hlist,
    Decoder.exists_decodeDocument _ _ _⟩

/-- A second round changes no byte of a stable definition. -/
theorem encode_again {t : Tree}
    (ht : Profile.encodeTree { settings := settings } kind v.value = .ok t) {written : String}
    (hwritten : Profile.encode { settings := settings } kind v.value = .ok written)
    (hsize : written.utf8ByteSize ≤ settings.maxDocumentBytes) (hdepth : t.height ≤ settings.maxDepth)
    (hstable : isStable { settings := settings } store kind t = true)
    (hcases : t.casesUnpadded = true) :
    ∃ w, Profile.decode { settings := settings } store kind written = .ok w ∧
      Profile.encode { settings := settings } kind w.value = .ok written := by
  obtain ⟨_, ht', rfl⟩ := encode_eq_ok_iff.1 hwritten
  cases ht.symm.trans ht'
  obtain ⟨schema, first, hschema, hfirst, rfl, hproper, hlegible, htidy, hwritable, hlist, fields,
    hfields⟩ := exists_root_of_decode_keeping settings hkeep hnames hv ht
  obtain ⟨o, ho⟩ := Analytics.exists_object_of_schemaFor? hschema
  have hschema' : Profile.registry { settings := settings } = Analytics.registry := rfl
  rw [hfields] at hproper hlegible htidy hfirst
  have hholds : Holds (ofRegistry Analytics.registry .standard) store
      (Convention.standard.resolveAll store (first.reread.candidates .standard)) (some schema)
        first := by
    refine ⟨?_, casesUnpadded_document.1 hcases, Decoder.knows_resolveAll _ _ false _⟩
    rw [isStable, lookup?_map, Entries.get?_cons, if_pos rfl, Option.any_some, hschema', hschema]
      at hstable
    exact hstable
  obtain ⟨back, hback, again, hagain, halike⟩ := exists_root_again
    (Analytics.encoder_steady store).refillable Analytics.registry_verbatimStrings
    Analytics.registry_isLegible ho hproper.1 hlegible htidy hfirst hholds
  have hvalue : (decodeRoot { settings := settings } store schema first.reread).value =
      .object back := by
    rw [decodeRoot, decoder, hkeep]
    exact decodeDocument_of_object hback
  refine ⟨_, decode_write hwritable hlist hschema hsize hdepth, encode_eq_ok_iff.2 ⟨_, ?_,
    (halike.write _ _).symm⟩⟩
  exact encodeTree_eq_ok_iff.2 ⟨schema, again, hschema, hvalue ▸ hagain, rfl⟩

end

theorem encode_again_workbook :
    ∃ v written, Profile.decode { settings := { keepEmpty := true } } .empty "workbook"
        "<root><x type=\"null\"/><Workbook><_T_>b</_T_></Workbook></root>" = .ok v ∧
      Profile.encode { settings := { keepEmpty := true } } "workbook" v.value = .ok written ∧
      ∃ w, Profile.decode { settings := { keepEmpty := true } } .empty "workbook" written = .ok w ∧
        Profile.encode { settings := { keepEmpty := true } } "workbook" w.value = .ok written := by
  have hnames : ∀ token ∈ Token.ofDocument
      "<root><x type=\"null\"/><Workbook><_T_>b</_T_></Workbook></root>", token.Named := by
    decide +kernel
  have hcheck : ((Profile.decode { settings := { keepEmpty := true } } .empty "workbook"
      "<root><x type=\"null\"/><Workbook><_T_>b</_T_></Workbook></root>").toOption.any fun v =>
        (Profile.encodeTree { settings := { keepEmpty := true } } "workbook" v.value).toOption.any
          fun t => isWithin { keepEmpty := true } t &&
            (isStable { settings := { keepEmpty := true } } .empty "workbook" t && t.casesUnpadded)) =
      true := by
    decide +kernel
  obtain ⟨v, hv, hcheck⟩ := (Option.any_eq_true _ _).1 hcheck
  obtain ⟨t, ht, hcheck⟩ := (Option.any_eq_true _ _).1 hcheck
  rw [← eq_ok_iff_toOption] at hv ht
  obtain ⟨hwithin, hcheck⟩ := Bool.and_eq_true_iff.1 hcheck
  obtain ⟨hstable, hcases⟩ := Bool.and_eq_true_iff.1 hcheck
  obtain ⟨hsize, hdepth⟩ := le_of_isWithin hwithin
  have hwritten := encode_eq_ok_iff.2 ⟨_, ht, rfl⟩
  exact ⟨v, _, hv, hwritten,
    encode_again { keepEmpty := true } rfl hnames hv ht hwritten hsize hdepth hstable hcases⟩

/-! ### Definitions that are not stable -/

section

variable (settings : Settings) (store : Store) (kind text : String)

/-- A second round changes the text of a definition. -/
def Changes : Prop :=
  ∃ v written w again, Profile.decode { settings := settings } store kind text = .ok v ∧
    Profile.encode { settings := settings } kind v.value = .ok written ∧
    Profile.decode { settings := settings } store kind written = .ok w ∧
    Profile.encode { settings := settings } kind w.value = .ok again ∧ again ≠ written

/-- The change as a check that can be evaluated. It goes by the trees, since reading the text again
is known to give the tree that was written. -/
def isChanged : Bool :=
  (Profile.decode { settings := settings } store kind text).toOption.any fun v =>
    (Profile.encodeTree { settings := settings } kind v.value).toOption.any fun t =>
      isWithin settings t && (t.lookup? Marker.root).any fun first =>
        (Analytics.registry.schemaFor? kind).any fun schema =>
          (Profile.encodeTree { settings := settings } kind
            (decodeRoot { settings := settings } store schema first.reread).value).toOption.any
              fun u => decide (writeDocument ⟨settings.pretty, settings.indent⟩ u ≠
                writeDocument ⟨settings.pretty, settings.indent⟩ t)

variable {settings store kind text}

theorem changes_of_isChanged (hkeep : settings.keepEmpty = true)
    (hnames : ∀ token ∈ Token.ofDocument text, token.Named)
    (h : isChanged settings store kind text = true) : Changes settings store kind text := by
  obtain ⟨v, hv, h⟩ := (Option.any_eq_true _ _).1 h
  obtain ⟨t, ht, h⟩ := (Option.any_eq_true _ _).1 h
  rw [← eq_ok_iff_toOption] at hv ht
  obtain ⟨hwithin, h⟩ := Bool.and_eq_true_iff.1 h
  obtain ⟨hsize, hdepth⟩ := le_of_isWithin hwithin
  obtain ⟨schema, first, hschema, -, rfl, -, -, -, hwritable, hlist, -⟩ :=
    exists_root_of_decode_keeping settings hkeep hnames hv ht
  rw [lookup?_map, Entries.get?_cons, if_pos rfl, Option.any_some, hschema, Option.any_some] at h
  obtain ⟨u, hu, hne⟩ := (Option.any_eq_true _ _).1 h
  rw [← eq_ok_iff_toOption] at hu
  refine ⟨v, _, _, _, hv, encode_eq_ok_iff.2 ⟨_, ht, rfl⟩,
    decode_write hwritable hlist hschema hsize hdepth, encode_eq_ok_iff.2 ⟨_, hu, rfl⟩,
    fun hsame => of_decide_eq_true hne (String.ofList_injective hsame)⟩

end

/-- A number where words stand, a null marker in place of an object that is not blank, verbatim words
that lead to a reference, and a truth value that is a text alone are not stable. -/
theorem unstable_definitions_change :
    Changes { keepEmpty := true } .empty "dataset"
        "<root><columns type=\"array\"><_ITEM_><field><fieldReference><id>5</id></fieldReference>
          </field></_ITEM_></columns></root>" ∧
      Changes { keepEmpty := true } .empty "dataset"
        "<root><criteria><_T_>condition</_T_><operator><code type=\"null\"/></operator></criteria>
          </root>" ∧
      Changes { keepEmpty := true }
        ⟨[Convention.standard.collection "custcollectiontranslations_a" ["b"]]⟩ "workbook"
        "<root><pivots type=\"array\"><_ITEM_><_T_>pivot</_T_><definition type=\"string\">
          custcollectiontranslations_a.b</definition></_ITEM_></pivots></root>" ∧
      Changes { keepEmpty := true } .empty "dataset"
        "<root><formulas type=\"array\"><_ITEM_><_T_>abc</_T_>true</_ITEM_></formulas></root>" :=
  ⟨changes_of_isChanged rfl (by decide +kernel) (by decide +kernel),
    changes_of_isChanged rfl (by decide +kernel) (by decide +kernel),
    changes_of_isChanged rfl (by decide +kernel) (by decide +kernel),
    changes_of_isChanged rfl (by decide +kernel) (by decide +kernel)⟩

end Profile

end TaggedMarkup
