import Mathlib.Data.String.Basic
import TaggedMarkup.Proofs.Analytics
import TaggedMarkup.Proofs.Cycle.Check
import TaggedMarkup.Proofs.Profile
/-!
# Convergence of decoding and encoding

A definition is decoded, encoded and decoded again. From then on a round changes nothing, except
that it cuts the blanks of a case that is kept in a field. `Profile.converges` states this for every
document, with the exact condition.
-/
namespace TaggedMarkup

open Encoder Markup TaggedMarkup.Tree

variable {e : Encoder} {store : Store} {res : Resolutions} {schema : Schema} {o : ObjectType}
  {fields : Entries Value} {t : Tree}

/-! ## Root elements -/

namespace Decoder

theorem proper_decodeDocument {d : Decoder} (h : t.Regular) (schema : Schema) :
    Proper (d.decodeDocument t schema) := by
  have hdecode := proper_decode (d := d) h (some schema)
  unfold decodeDocument
  split
  · next hv => rwa [hv] at hdecode
  · exact proper_nil
  · refine proper_object (List.nodup_singleton _) fun key v hm => ?_
    obtain ⟨rfl, rfl⟩ := Prod.mk.inj (List.mem_singleton.1 hm)
    refine ⟨fun name ha => ?_, hdecode⟩
    rw [show Marker.attributeName? Marker.text = none by decide] at ha
    cases ha

end Decoder

namespace Steady

variable (h : Steady e store)

include h

/-- The fields of a decoded definition last, or are dropped for a reason. -/
theorem carries_decodeDocument (hs : (e.reader res).Sound store) (ht : t.Regular)
    (ho : e.registry.resolve schema = .object o) :
    ∃ fields, (e.reader res).decodeDocument t schema = .object fields ∧
      Carries e store (some o) (DroppableAt e (some o)) fields := by
  have htidy := Tidy.decode h.keyed hs ht (some schema) (some schema) (.inl rfl)
  have hplain := plainType?_of_object ho
  unfold Decoder.decodeDocument
  split
  · next fields hv =>
    rw [hv] at htidy
    cases htidy with
    | object _ plain _ _ => exact ⟨fields, rfl, h.settles (plain _ hplain) fields rfl⟩
  · exact ⟨[], rfl, List.nodup_nil, by simp, by simp⟩
  · next v hobject hempty =>
    have htext : ∀ key w, (key, w) ∈ [(Marker.text, (e.reader res).decode t (some schema))] →
        key = Marker.text ∧ w = (e.reader res).decode t (some schema) := fun key w hm =>
      Prod.mk.inj (List.mem_singleton.1 hm)
    refine ⟨_, rfl, List.nodup_singleton _, fun w hw hwire => ?_, fun key w path u res' hw hk => ?_⟩
    · rw [(htext _ w hw).2] at hwire
      exact htidy.wireText?_ne_empty hempty hwire
    · rw [(htext key w hw).1] at hk
      exact absurd hk (by decide)

/-- What is read back of a root element is encoded as one that gives it back. -/
theorem exists_root (ho : e.registry.resolve schema = .object o)
    (hc : Carries e store (some o) (DroppableAt e (some o)) fields)
    (hencode : e.encodeRoot (.object fields) schema = .ok t)
    (hknows : (e.reader res).Knows store t.reread) :
    ∃ back, (e.reader res).decode t.reread (some schema) = .object back ∧
      ∃ u, e.encodeRoot (.object back) schema = .ok u ∧ Element e store (some schema) back u := by
  have hplain := plainType?_of_object ho
  have hk : Known e (some o) := fun u hu => mem_types_of_plainType? hplain hu
  have hwell := h.wellKeyed hk
  have hidle : ∀ key, DroppableAt e (some o) key → IdleAt e (some o) key := fun key =>
    h.idleAt_of_droppableAt hk
  have hparted : (some o).bind ObjectType.tag = none → Parted (some o) := fun htag =>
    (h.parted_or hk htag).resolve_left (by simp)
  have hagain : ∀ back, FieldsSettled e store (some o) (untypedCase? back (some o)).isSome back →
      ∃ u, e.encodeRoot (.object back) schema = .ok u ∧ Element e store (some schema) back u := by
    intro back hsettled
    obtain ⟨entries, hlays, helement⟩ := exists_element hwell hplain hsettled (h.unpadded_tag hk)
      (fun htag => .inl (hparted htag)) fun (hcollapse : false = true) => by cases hcollapse
    exact ⟨_, (encodeRoot_object_eq_ok_iff h.keyed ho).2 ⟨entries, hlays .root, rfl⟩, helement⟩
  obtain ⟨entries, hl, rfl⟩ := (encodeRoot_object_eq_ok_iff h.keyed ho).1 hencode
  obtain ⟨hentries, hdecode, -⟩ := decode_finishObject hwell hplain hc.distinct hl
    (h.unpadded_tag hk) (fun hcase htag => ⟨hasParts_of_lays hwell (hcase ▸ hl)
      (.inl (hparted htag)), by simp⟩) hknows
  rw [hdecode]
  cases hcase : untypedCase? fields (some o) with
  | some case =>
    rw [hcase] at hl
    obtain ⟨back, hback, hsettled, -⟩ := h.untyped hk hc hidle hcase hl hentries (trimText case)
    exact ⟨back, hback, hagain back hsettled⟩
  | none =>
    rw [hcase] at hl
    exact ⟨_, rfl, hagain _ ((h.fieldsSettled hk hc hidle hl hentries (by simp)).skip _)⟩

end Steady

/-! ## Whole definitions -/

namespace Analytics

/-- The standard encoder is steady. Only a formula, which is inline, or what is made of formulas can
be read back as nothing. -/
theorem encoder_steady (store : Store) : Steady (ofRegistry registry .standard) store := by
  have hcheck : (ofRegistry registry .standard).isSteady
      ["formula", "dataSetFormula", "dataSet"] = true := by decide +kernel
  exact steady_of_isSteady hcheck registry_wellKeyed (fillsAlike_ofRegistry _ _)

theorem registry_isNamed : registry.isNamed = true := by decide +kernel

/-- The kinds of definitions have object types. -/
theorem exists_object_of_schemaFor? {kind : String} {schema : Schema}
    (h : registry.schemaFor? kind = some schema) : ∃ o, registry.resolve schema = .object o := by
  have hall : (registry.documents.all fun d => (registry.objectOf? d.2).isSome) = true := by
    decide +kernel
  obtain ⟨o, ho⟩ := Option.isSome_iff_exists.1
    (List.all_eq_true.1 hall _ (Entries.mem_of_get?_eq_some h))
  unfold Registry.objectOf? at ho
  split at ho
  · exact ⟨_, by assumption⟩
  · cases ho

end Analytics

namespace Profile

variable {p : Profile}

theorem decodeRoot_value (hkeep : p.settings.keepEmpty = false) (store : Store) (schema : Schema)
    (root : Tree) : ∃ res, (p.decodeRoot store schema root).value =
      ((ofRegistry p.registry p.convention).reader res).decodeDocument root schema ∧
      ((ofRegistry p.registry p.convention).reader res).Knows store root ∧
      ((ofRegistry p.registry p.convention).reader res).Sound store := by
  refine ⟨p.convention.resolveAll store (root.candidates p.convention), ?_,
    Decoder.knows_resolveAll _ _ _ _, Decoder.sound_resolveAll _ _ _ _⟩
  rw [decodeRoot, decoder, hkeep]
  rfl

theorem regular_of_documentRoot {document root : Tree} (h : document.Regular)
    (hroot : documentRoot document = .ok root) : root.Regular := by
  cases h with
  | text _ => cases hroot
  | list _ => cases hroot
  | @map top _ _ _ _ each =>
    rw [documentRoot, asEntries?] at hroot
    simp only at hroot
    split at hroot
    · cases hroot
    · next u _ hu =>
      split at hroot
      · exact Except.ok.inj hroot ▸ each _ _ (Entries.mem_of_get?_eq_some hu)
      · cases hroot
    · cases hroot

theorem decodeDocument_of_object {d : Decoder} {root : Tree} {schema : Schema}
    {fields : Entries Value} (h : d.decode root (some schema) = .object fields) :
    d.decodeDocument root schema = .object fields := by
  rw [Decoder.decodeDocument, h]

theorem casesUnpadded_document {t : Tree} :
    (Tree.map [(Marker.root, t)]).casesUnpadded = true ↔ t.casesUnpadded = true := by
  have hne : Marker.root ≠ Marker.variant := by decide
  rw [casesUnpadded_map_iff]
  constructor
  · intro h
    simpa [hne] using h Marker.root t (List.mem_singleton_self _)
  · intro h key u hu
    obtain ⟨rfl, rfl⟩ := Prod.mk.inj (List.mem_singleton.1 hu)
    rwa [if_neg hne]

section

variable (settings : Settings) (hkeep : settings.keepEmpty = false) {store : Store} {kind text : String}
  (hnames : ∀ token ∈ Token.ofDocument text, token.Named) {v : Decoded}
  (hv : Profile.decode { settings := settings } store kind text = .ok v)

theorem writable_of_proper {v : Value} {schema : Schema} {t : Tree} (hv : Decoder.Proper v)
    (h : (ofRegistry Analytics.registry .standard).encodeRoot v schema = .ok t) :
    t.Writable ∧ t.isList = false :=
  ⟨writable_of_encodeRoot (fillsWritable_ofRegistry Analytics.registry_wellKeyed
    Analytics.registry_isNamed _) Analytics.registry_wellKeyed hv.1 hv.2 h,
    isList_of_encodeRoot Analytics.registry_wellKeyed h⟩

include hkeep hnames hv in
/-- What has been decoded is written as a root element that can be read. -/
theorem exists_root_of_decode {t : Tree}
    (ht : Profile.encodeTree { settings := settings } kind v.value = .ok t) :
    ∃ schema o fields first, Analytics.registry.schemaFor? kind = some schema ∧
      Analytics.registry.resolve schema = .object o ∧
      Carries (ofRegistry Analytics.registry .standard) store (some o)
        (DroppableAt (ofRegistry Analytics.registry .standard) (some o)) fields ∧
      (ofRegistry Analytics.registry .standard).encodeRoot (.object fields) schema = .ok first ∧
      t = .map [(Marker.root, first)] ∧ first.Writable ∧ first.isList = false := by
  obtain ⟨schema, document, root, hschema, -, hread, hroot, rfl⟩ := decode_eq_ok_iff.1 hv
  obtain ⟨o, ho⟩ := Analytics.exists_object_of_schemaFor? hschema
  have hregular := regular_of_documentRoot (regular_of_read hnames hread) hroot
  obtain ⟨res, hvalue, -, hsound⟩ := decodeRoot_value (p := { settings := settings }) hkeep store
    schema root
  obtain ⟨fields, hfields, hcarries⟩ :=
    (Analytics.encoder_steady store).carries_decodeDocument hsound hregular ho
  obtain ⟨_, first, hschema', hfirst, rfl⟩ := encodeTree_eq_ok_iff.1 ht
  cases hschema.symm.trans hschema'
  rw [hvalue] at hfirst
  obtain ⟨hwritable, hlist⟩ :=
    writable_of_proper (Decoder.proper_decodeDocument hregular schema) hfirst
  rw [hfields] at hfirst
  exact ⟨schema, o, fields, first, hschema, ho, hcarries, hfirst, rfl, hwritable, hlist⟩

include hkeep hnames hv in
/-- The root element of the second round, and what the third one makes of it. -/
theorem exists_second_root {t : Tree}
    (ht : Profile.encodeTree { settings := settings } kind v.value = .ok t) :
    ∃ schema first second, Analytics.registry.schemaFor? kind = some schema ∧
      t = .map [(Marker.root, first)] ∧ first.Writable ∧ first.isList = false ∧
      (ofRegistry Analytics.registry .standard).encodeRoot
        (decodeRoot { settings := settings } store schema first.reread).value schema =
          .ok second ∧ second.Writable ∧ second.isList = false ∧
      ((decodeRoot { settings := settings } store schema first.reread).value.same
        (decodeRoot { settings := settings } store schema second.reread).value = true ↔
          second.casesUnpadded = true) := by
  obtain ⟨schema, o, fields, first, hschema, ho, hcarries, hfirst, rfl, hwritable, hlist⟩ :=
    exists_root_of_decode settings hkeep hnames hv ht
  obtain ⟨res, hvalue, hknows, -⟩ := decodeRoot_value (p := { settings := settings }) hkeep store
    schema first.reread
  obtain ⟨back, hback, second, hsecond, helement⟩ :=
    (Analytics.encoder_steady store).exists_root ho hcarries hfirst hknows
  have hproper := Decoder.proper_decodeDocument
    (d := (ofRegistry Analytics.registry .standard).reader res) hwritable.regular_reread schema
  rw [decodeDocument_of_object hback] at hvalue hproper
  obtain ⟨hwritable', hlist'⟩ := writable_of_proper hproper hsecond
  obtain ⟨res', hvalue', hknows', -⟩ := decodeRoot_value (p := { settings := settings }) hkeep store
    schema second.reread
  obtain ⟨again, hagain, hiff⟩ := helement res' hknows'
  refine ⟨schema, first, second, hschema, rfl, hwritable, hlist, ?_, hwritable', hlist', ?_⟩
  · rw [hvalue]
    exact hsecond
  · rw [hvalue, hvalue', decodeDocument_of_object hagain]
    exact hiff

include hkeep hnames hv in
/-- One round of encoding and decoding makes a definition that comes back from then on, exactly if no
case in it has a blank at an end. -/
theorem converges {written : String}
    (hwritten : Profile.encode { settings := settings } kind v.value = .ok written) {w : Decoded}
    (hw : Profile.decode { settings := settings } store kind written = .ok w) :
    ∃ t, Profile.encodeTree { settings := settings } kind w.value = .ok t ∧
      ((write ⟨settings.pretty, settings.indent⟩ t).utf8ByteSize ≤ settings.maxDocumentBytes →
        t.height ≤ settings.maxDepth →
        ∃ u, Profile.decode { settings := settings } store kind
            (write ⟨settings.pretty, settings.indent⟩ t) = .ok u ∧
          (w.value.same u.value = true ↔ t.casesUnpadded = true)) := by
  obtain ⟨_, htree, rfl⟩ := encode_eq_ok_iff.1 hwritten
  obtain ⟨schema, first, second, hschema, rfl, hwritable, hlist, hsecond, hwritable', hlist', hiff⟩ :=
    exists_second_root settings hkeep hnames hv htree
  obtain rfl := eq_of_decode_write hwritable hlist hschema hw
  refine ⟨_, encodeTree_eq_ok_iff.2 ⟨schema, second, hschema, hsecond, rfl⟩, fun hsize hdepth => ?_⟩
  refine ⟨_, decode_write hwritable' hlist' hschema hsize hdepth, ?_⟩
  rw [casesUnpadded_document]
  exact hiff

end

/-- The limits as a check that can be evaluated. -/
def isWithin (settings : Settings) (t : Tree) : Bool :=
  decide (String.utf8Len (writeDocument ⟨settings.pretty, settings.indent⟩ t) ≤
    settings.maxDocumentBytes) && decide (t.height ≤ settings.maxDepth)

theorem le_of_isWithin {settings : Settings} {t : Tree} (h : isWithin settings t = true) :
    (write ⟨settings.pretty, settings.indent⟩ t).utf8ByteSize ≤ settings.maxDocumentBytes ∧
      t.height ≤ settings.maxDepth := by
  rw [isWithin, Bool.and_eq_true, decide_eq_true_eq, decide_eq_true_eq] at h
  rwa [write, String.utf8ByteSize_ofList]

theorem converges_tagged_workbook :
    ∃ v written w, Profile.decode {} .empty "workbook"
        "<root><Workbook><_T_> a</_T_><b/></Workbook></root>" = .ok v ∧
      Profile.encode {} "workbook" v.value = .ok written ∧
      Profile.decode {} .empty "workbook" written = .ok w ∧
      ∃ t, Profile.encodeTree {} "workbook" w.value = .ok t ∧
        ((write ⟨true, 2⟩ t).utf8ByteSize ≤ 10485760 → t.height ≤ 256 →
          ∃ u, Profile.decode {} .empty "workbook" (write ⟨true, 2⟩ t) = .ok u ∧
            (w.value.same u.value = true ↔ t.casesUnpadded = true)) := by
  have hnames : ∀ token ∈ Token.ofDocument "<root><Workbook><_T_> a</_T_><b/></Workbook></root>",
      token.Named := by
    have htokens : Token.ofDocument "<root><Workbook><_T_> a</_T_><b/></Workbook></root>" =
        [.opening "root" (some []), .opening "Workbook" (some []), .opening "_T_" (some []),
          .characters (some "a"), .closing "_T_", .selfClosing "b" (some []),
          .closing "Workbook", .closing "root"] := by decide +kernel
    rw [htokens]
    simp [Token.Named, isNameChar]
  have hcheck : ((Profile.decode {} .empty "workbook"
      "<root><Workbook><_T_> a</_T_><b/></Workbook></root>").toOption.any fun v =>
        (Profile.encodeTree {} "workbook" v.value).toOption.any (isWithin {})) = true := by
    decide +kernel
  obtain ⟨v, hv, hcheck⟩ := (Option.any_eq_true _ _).1 hcheck
  obtain ⟨t, ht, hwithin⟩ := (Option.any_eq_true _ _).1 hcheck
  rw [← eq_ok_iff_toOption] at hv ht
  obtain ⟨hsize, hdepth⟩ := le_of_isWithin hwithin
  obtain ⟨schema, first, -, hschema, rfl, hwritable, hlist, -⟩ :=
    exists_second_root {} rfl hnames hv ht
  have hwritten := encode_eq_ok_iff.2 ⟨_, ht, rfl⟩
  have hw : Profile.decode {} .empty "workbook" (write ⟨true, 2⟩ (.map [(Marker.root, first)])) =
      .ok _ := decode_write hwritable hlist hschema hsize hdepth
  exact ⟨v, _, _, hv, hwritten, hw, converges {} rfl hnames hv hwritten hw⟩

/-- A case that a field keeps with blanks is cut by the third reading. -/
theorem padded_case_is_cut :
    ∃ v written w t u, Profile.decode {} .empty "workbook"
        "<root><xmlType><b type=\"null\"/><![CDATA[ abc ]]></xmlType></root>" = .ok v ∧
      Profile.encode {} "workbook" v.value = .ok written ∧
      Profile.decode {} .empty "workbook" written = .ok w ∧
      Profile.encodeTree {} "workbook" w.value = .ok t ∧
      Profile.decode {} .empty "workbook" (write ⟨true, 2⟩ t) = .ok u ∧
      w.value.same u.value = false := by
  have hnames : ∀ token ∈ Token.ofDocument
      "<root><xmlType><b type=\"null\"/><![CDATA[ abc ]]></xmlType></root>", token.Named := by
    have htokens : Token.ofDocument
        "<root><xmlType><b type=\"null\"/><![CDATA[ abc ]]></xmlType></root>" =
        [.opening "root" (some []), .opening "xmlType" (some []),
          .selfClosing "b" (some [("type", "null")]), .verbatim " abc ", .closing "xmlType",
          .closing "root"] := by decide +kernel
    rw [htokens]
    simp [Token.Named, isNameChar, IsName]
  have hcheck : ((Profile.decode {} .empty "workbook"
      "<root><xmlType><b type=\"null\"/><![CDATA[ abc ]]></xmlType></root>").toOption.any fun v =>
        (Profile.encodeTree {} "workbook" v.value).toOption.any fun t =>
          isWithin {} t && (Entries.get? (t.asEntries?.getD []) Marker.root).any fun first =>
            (Profile.encodeTree {} "workbook" (decodeRoot {} .empty (.named "workbookDefinition")
              first.reread).value).toOption.any fun u => isWithin {} u && !u.casesUnpadded) =
      true := by
    decide +kernel
  obtain ⟨v, hv, hcheck⟩ := (Option.any_eq_true _ _).1 hcheck
  obtain ⟨t, ht, hcheck⟩ := (Option.any_eq_true _ _).1 hcheck
  rw [← eq_ok_iff_toOption] at hv ht
  obtain ⟨schema, first, second, hschema, rfl, hwritable, hlist, hsecond, hwritable', hlist', hiff⟩ :=
    exists_second_root {} rfl hnames hv ht
  obtain rfl : Schema.named "workbookDefinition" = schema := Option.some.inj hschema
  have htree : Profile.encodeTree {} "workbook" (decodeRoot {} .empty
      (.named "workbookDefinition") first.reread).value = .ok (.map [(Marker.root, second)]) :=
    encodeTree_eq_ok_iff.2 ⟨_, second, hschema, hsecond, rfl⟩
  obtain ⟨hwithin, hcheck⟩ := Bool.and_eq_true_iff.1 hcheck
  have hsecondcheck : (isWithin {} (.map [(Marker.root, second)]) &&
      !(Tree.map [(Marker.root, second)]).casesUnpadded) = true := by
    simpa [asEntries?, Entries.get?_cons, htree, Except.toOption] using hcheck
  obtain ⟨hwithin', hpadded⟩ := Bool.and_eq_true_iff.1 hsecondcheck
  refine ⟨v, _, _, _, _, hv, encode_eq_ok_iff.2 ⟨_, ht, rfl⟩,
    decode_write (p := {}) hwritable hlist hschema (le_of_isWithin hwithin).1
      (le_of_isWithin hwithin).2, htree,
    decode_write (p := {}) hwritable' hlist' hschema (le_of_isWithin hwithin').1
      (le_of_isWithin hwithin').2, ?_⟩
  rw [← Bool.not_eq_true, hiff, ← casesUnpadded_document]
  simpa using hpadded

end Profile

end TaggedMarkup
