import TaggedMarkup.Proofs.Restoring.Values
/-!
# Objects read back from their elements

The fields of an object are found again in its own element, under the name of its case where a
variant stands, and under the root. With that every value of a schema that comes back is read back,
by induction on the value.
-/
namespace TaggedMarkup

open Encoder Markup TaggedMarkup.Tree

/-- No tag and no name of a case has a blank at an end. -/
structure Registry.Trimmed (r : Registry) : Prop where
  tag : ∀ o tag, .object o ∈ r.types → o.tag = some tag → Unpadded tag
  case : ∀ v case schema, .variant v ∈ r.types → v.case? case = some schema → Unpadded case

variable {e : Encoder} {store : Store} {res : Resolutions} {s : Option Schema} {verbatim : Bool}
  {o : Option ObjectType} {path : Path} {fields : Entries Value} {entries : Entries Tree} {t : Tree}
  {v : Value}

/-! ## Elements of objects -/

/-- A field that is read back without having been written was filled in from its declaration. -/
theorem Restores.untypedCase_not_mem {back : Entries Value}
    (h : Restores e res (.body o) (.object (ownFields true fields)) (.object back))
    (hdeclared : declared? o Marker.untypedCase = none) : Marker.untypedCase ∉ back.keys := by
  intro hmem
  obtain ⟨w, hw⟩ := Entries.exists_of_mem_keys hmem
  have hnot : Marker.untypedCase ∉ (ownFields true fields).keys := by
    intro hkey
    obtain ⟨v, hv⟩ := Entries.exists_of_mem_keys hkey
    simp [ownFields] at hv
  cases h with
  | body _ _ _ filled =>
    obtain ⟨f, -, -, hf, -⟩ := filled _ w hw hnot
    rw [hdeclared] at hf
    cases hf

/-- The field for the case joins the fields that are read back beside it. -/
theorem Restores.cons_untypedCase (hd : fields.Distinct) {case : String} {back : Entries Value}
    (hfield : (Marker.untypedCase, .string case) ∈ fields)
    (hnew : Marker.untypedCase ∉ back.keys)
    (h : Restores e res (.body o) (.object (ownFields true fields)) (.object back)) :
    Restores e res (.body o) (.object fields)
      (.object ((Marker.untypedCase, .string case) :: back)) := by
  have hown : ∀ key v, (key, v) ∈ fields → key ≠ Marker.untypedCase →
      (key, v) ∈ ownFields true fields := fun key v hv hne =>
    List.mem_filter.2 ⟨hv, by simpa using hne⟩
  have hback : ∀ key w, (key, w) ∈ (Marker.untypedCase, Value.string case) :: back →
      key ≠ Marker.untypedCase → (key, w) ∈ back := by
    intro key w hw hne
    exact (List.mem_cons.1 hw).resolve_left fun heq => hne (Prod.mk.inj heq).1
  cases h with
  | body distinct kept each filled =>
    refine .body (Entries.distinct_cons.2 ⟨hnew, distinct⟩) (fun key hkey => ?_)
      (fun key v w hv hw => ?_) fun key w hw hmissing => ?_
    · by_cases hne : key = Marker.untypedCase
      · exact hne ▸ List.mem_cons_self
      · obtain ⟨v, hv⟩ := Entries.exists_of_mem_keys hkey
        exact List.mem_cons_of_mem _ (kept key (Entries.mem_keys_of_mem (hown key v hv hne)))
    · by_cases hne : key = Marker.untypedCase
      · subst hne
        have hv := (Entries.get?_eq_some_iff hd).2 hv
        rw [(Entries.get?_eq_some_iff hd).2 hfield] at hv
        obtain rfl := Option.some.inj hv
        rcases List.mem_cons.1 hw with heq | hw
        · rw [(Prod.mk.inj heq).2]
          exact .scalar _ rfl
        · exact absurd (Entries.mem_keys_of_mem hw) hnew
      · exact each key v w (hown key v hv hne) (hback key w hw hne)
    · have hne : key ≠ Marker.untypedCase := by
        rintro rfl
        exact hmissing (Entries.mem_keys_of_mem hfield)
      refine filled key w (hback key w hw hne) fun hkey => hmissing ?_
      obtain ⟨v, hv⟩ := Entries.exists_of_mem_keys hkey
      exact Entries.mem_keys_of_mem (List.mem_of_mem_filter hv)

/-- A case that a field keeps is put back into its field. -/
theorem exists_withCase (hd : fields.Distinct)
    (hcase : ∀ case, untypedCase? fields o = some case → Unpadded case) {back : Entries Value}
    (h : Restores e res (.body o) (.object (ownFields (untypedCase? fields o).isSome fields))
      (.object back)) :
    ∃ all, withCase (untypedCase? fields o) back = .object all ∧
      Restores e res (.body o) (.object fields) (.object all) := by
  cases hkept : untypedCase? fields o with
  | none =>
    rw [hkept, Option.isSome_none, ownFields_false] at h
    exact ⟨back, rfl, h⟩
  | some case =>
    rw [hkept, Option.isSome_some] at h
    obtain ⟨hfield, hdeclared⟩ := untypedCase?_eq_some hkept
    have hnew := h.untypedCase_not_mem hdeclared
    have hdistinct : back.Distinct := by
      cases h with
      | body distinct _ _ _ => exact distinct
    refine ⟨_, ?_, h.cons_untypedCase hd hfield hnew⟩
    rw [withCase, trimText_of_unpadded (hcase case hkept), Decoder.untyped_of_not_mem hdistinct hnew]

theorem unpadded_of_isFaithfulElement (h : Value.isFaithfulElement fields o = true) :
    ∀ case, untypedCase? fields o = some case → Unpadded case := by
  rw [Value.isFaithfulElement, Bool.and_eq_true] at h
  intro case hkept
  simpa [hkept] using h.2

theorem hasParts_of_isFaithfulElement (ho : ∀ u, o = some u → u.WellKeyed)
    (hl : e.Lays o path false fields entries) (h : Value.isFaithfulElement fields o = true)
    (htag : o.bind ObjectType.tag = none) (hne : fields ≠ []) : hasParts entries = true := by
  rw [Value.isFaithfulElement, Bool.and_eq_true] at h
  refine hasParts_of_lays ho hl ?_
  rcases Bool.or_eq_true_iff.1 h.1 with htext | hparted
  · exact .inr (Value.exists_of_isText (by simpa using htext) hne)
  · obtain ⟨u, rfl, hu⟩ := (Option.any_eq_true _ _).1 hparted
    have hnone : u.tag = none := htag
    rw [hnone, Option.isSome_none, Bool.false_or] at hu
    obtain ⟨f, hf, hoptional⟩ := List.any_eq_true.1 hu
    exact .inl ⟨u, rfl, f, hf, by simpa using hoptional⟩

section

variable (hr : e.registry.WellKeyed) (ht : e.registry.Trimmed) (hd : fields.Distinct)

include hr ht hd

/-- The element of an object, unless it has no parts or has collapsed. -/
theorem exists_restored_element (hs : plainType? (s.map e.registry.resolve) = some o)
    (hl : e.Lays o path (untypedCase? fields o).isSome fields entries)
    (hcase : ∀ case, untypedCase? fields o = some case → Unpadded case) {collapse : Bool}
    (hparts : untypedCase? fields o = none → o.bind ObjectType.tag = none →
      hasParts entries = true ∧ ¬ (collapse = true ∧ (entries.all fun t => t.2.isPlaceholder) = true))
    (hentries : KnowsEntries e store res entries →
      Restores e res (.body o) (.object (ownFields (untypedCase? fields o).isSome fields))
        (.object ((e.reader res).readBack o entries)))
    (hknows : (e.reader res).Knows store
      (finishObject (untypedCase? fields o) o collapse entries).reread) :
    ∃ back, (e.reader res).decode
        (finishObject (untypedCase? fields o) o collapse entries).reread s = .object back ∧
      Restores e res (.body o) (.object fields) (.object back) := by
  have hknown : Known e o := fun _ => mem_types_of_plainType? hs
  have htag : ∀ tag, o.bind ObjectType.tag = some tag → Unpadded tag := by
    intro tag hu
    obtain ⟨u, rfl, hu⟩ := Option.bind_eq_some_iff.1 hu
    exact ht.tag u tag (hknown u rfl) hu
  obtain ⟨hknown', hdecode, -⟩ := decode_finishObject (fun u hu => hr.objects u (hknown u hu)) hs hd
    hl htag hparts hknows
  rw [hdecode]
  exact exists_withCase hd hcase (hentries hknown')

/-- The element of a case. -/
theorem exists_restored_case {w : VariantType} {case : String} {schema : Schema}
    (hs : s.map e.registry.resolve = some (.variant w)) (hcase : w.case? case = some schema)
    (hl : e.Lays (e.registry.objectOf? schema) path false fields entries)
    (hentries : KnowsEntries e store res entries →
      Restores e res (.body (e.registry.objectOf? schema)) (.object fields)
        (.object ((e.reader res).readBack (e.registry.objectOf? schema) entries)))
    (hknows : (e.reader res).Knows store (finishCase case entries).reread) :
    ∃ back, (e.reader res).decode (finishCase case entries).reread s =
        (if w.isInline then .object back else .object [(case, .object back)]) ∧
      Restores e res (.body (e.registry.objectOf? schema)) (.object fields) (.object back) := by
  have ho : ∀ u, e.registry.objectOf? schema = some u → u.WellKeyed := fun u hu => hr.of_objectOf? hu
  obtain ⟨place, rfl, hplace⟩ := Option.map_eq_some_iff.1 hs
  have hunpadded : Unpadded case :=
    ht.case w case schema (Registry.mem_types_of_resolve_variant hplace) hcase
  have hkind : Decoder.KindFree entries := fun u hu => hl.kind ho hu
  have hm : Marks case entries _ := .first
  rw [finishCase_eq ho hd hl] at hknows ⊢
  exact ⟨_, hm.decode_case hkind (hl.variant_not_mem ho) hunpadded hs hcase,
    hentries (hm.knowsEntries hkind hknows)⟩

end

/-! ## Values -/

/-- A list is read back item by item. -/
theorem restores_array (hr : e.registry.WellKeyed) {item : Option Schema} {items : List Value}
    {ts : List Tree} (hitem : itemType? (s.map e.registry.resolve) = some item)
    (hts : List.Forall₂ (fun v t => ∃ p, e.encode v item false p = .ok t) items ts)
    (hf : ∀ v ∈ items, v.isFaithful e store item = true)
    (heach : ∀ v ∈ items, ValueReturns e store v)
    (hknows : (e.reader res).Knows store (Tree.array ts).reread) :
    Restores e res (.value s) (.list items) ((e.reader res).decode (Tree.array ts).reread s) := by
  have hrestores : List.Forall₂ (fun v t => v.isFaithful e store item = true ∧
      Restores e res (.value item) v ((e.reader res).decode t.reread item)) items ts :=
    forall₂_imp_of_mem hts fun v t hv ht ⟨p, hp⟩ =>
      ⟨hf v hv, heach v hv item false p t res (hf v hv) hp (by simp) (knows_of_mem_array hknows ht)⟩
  have hall : (ts.map fun t => (e.reader res).decode t.reread item).filter (e.reader res).keeps =
      ts.map fun t => (e.reader res).decode t.reread item := by
    refine List.filter_eq_self.2 fun w hw => ?_
    obtain ⟨t, ht, rfl⟩ := List.mem_map.1 hw
    obtain ⟨v, -, hfaithful, hv⟩ := mem_of_forall₂_right hrestores ht
    exact keeps_iff.2 (hv.isEmptyContainer (Value.isEmptyContainer_of_isFaithful hfaithful))
  rw [decode_encoded_list hr hts, Decoder.itemHint_of_itemType? hitem, hall]
  obtain ⟨hlength, hzip⟩ := List.forall₂_iff_zip.1
    (List.forall₂_map_right_iff.2 (hrestores.imp fun _ _ h => h.2))
  exact .list hitem hlength.symm fun v w hvw => hzip hvw

section

variable (hr : e.registry.WellKeyed) (ht : e.registry.Trimmed) (hs : e.registry.VerbatimStrings)

include hr hs

theorem entriesReturn (hv : objectFields? v = some fields) (hd : fields.Distinct)
    (heach : ∀ key v, (key, v) ∈ fields → ValueReturns e store v) : EntriesReturn e store v := by
  intro fields o path skipCase entries res hfields hfaithful hknown hl hknows
  cases hv.symm.trans hfields
  exact restores_readBack hr hs hknown hd hfaithful heach hl hknows

include ht

/-- What is read of an object restores it, given that it restores its fields. -/
theorem valueReturns_object (hk : (Value.object fields).Keyed)
    (heach : ∀ key v, (key, v) ∈ fields → ValueReturns e store v ∧ EntriesReturn e store v) :
    ValueReturns e store (.object fields) := by
  intro s verbatim path t res hf hencode _ hknows
  have hd := hk.distinct
  have hvalues : ∀ key v, (key, v) ∈ fields → ValueReturns e store v := fun key v hv =>
    (heach key v hv).1
  have hentries : EntriesReturn e store (.object fields) := entriesReturn hr hs rfl hd hvalues
  have hne := Value.ne_nil_of_isFaithful hf
  have hshape := (encode_object_eq_ok_iff hr).1 hencode
  generalize hresolved : s.map e.registry.resolve = resolved at hshape
  cases hshape with
  | @plain _ o entries hplain hl =>
    rw [← hresolved] at hplain
    have hknown : Known e o := fun _ => mem_types_of_plainType? hplain
    obtain ⟨helement, hfaithful⟩ := Value.isFaithful_plain hf hplain
    have hparts : untypedCase? fields o = none → o.bind ObjectType.tag = none →
        hasParts entries = true ∧
          ¬ (true = true ∧ (entries.all fun t => t.2.isPlaceholder) = true) := by
      intro hcase htag
      rw [hcase] at hl
      refine ⟨hasParts_of_isFaithfulElement (fun u hu => hr.objects u (hknown u hu)) hl helement htag
        hne, ?_⟩
      rintro ⟨-, hall⟩
      obtain ⟨a, ha, hsomething⟩ := exists_isPlaceholder_false hs hknown hfaithful hvalues hl rfl hne
      rw [List.all_eq_true.1 hall a ha] at hsomething
      cases hsomething
    obtain ⟨back, hback, hrestores⟩ := exists_restored_element hr ht hd hplain hl
      (unpadded_of_isFaithfulElement helement) hparts
      (fun hknown' => hentries fields o path _ entries res rfl hfaithful hknown hl hknown') hknows
    rw [hback]
    exact .plain hplain hrestores
  | blank _ hnil => exact absurd hnil hne
  | @explicit w case schema payload inner entries hc hfields hp hl =>
    obtain ⟨hinline, hcase, -⟩ := explicitCase?_eq_some_iff.1 hc
    have hpayload : (case, payload) ∈ fields := by simp [hfields]
    have hinner : inner.Distinct := distinct_of_objectFields? (hk.of_mem_fields hpayload) hp
    obtain ⟨back, hback, hrestores⟩ := exists_restored_case hr ht hinner hresolved hcase hl
      (fun hknown => by
        have hpayload := (heach case payload hpayload).2 inner _ _ _ _ res hp
          (Value.isFaithful_explicit hf hresolved hc hfields hp)
          (fun u hu => Registry.mem_types_of_objectOf? hu) hl hknown
        rwa [ownFields_false] at hpayload) hknows
    rw [hback, hinline, if_neg Bool.false_ne_true, hfields]
    exact .explicit hresolved (hfields ▸ hc) hp hrestores
  | @implied w case schema entries _ hc hsole hl =>
    have hcase := VariantType.case?_of_soleCase? hsole
    obtain ⟨back, hback, hrestores⟩ := exists_restored_case hr ht hd hresolved hcase hl
      (fun hknown => by
        have hfields := hentries fields _ _ _ _ res rfl (Value.isFaithful_implied hf hresolved hc hsole)
          (fun u hu => Registry.mem_types_of_objectOf? hu) hl hknown
        rwa [ownFields_false] at hfields) hknows
    rw [hback]
    cases hinline : w.isInline with
    | true => exact .inline hresolved hinline hsole hrestores
    | false => exact .implied hresolved hinline hc hsole hrestores

/-- Every value that comes back is read back from its element. -/
theorem returns_of_keyed (hk : v.Keyed) : ValueReturns e store v ∧ EntriesReturn e store v := by
  have hleaf : ∀ v : Value, v.hasText = true → objectFields? v = none →
      ValueReturns e store v ∧ EntriesReturn e store v := by
    refine fun v hv hnone => ⟨fun s verbatim path t res hf hencode hverbatim hknows => ?_,
      fun fields _ _ _ _ _ hfields => ?_⟩
    · rw [decode_of_hasText hv hf hencode hverbatim hknows]
      exact .scalar s hv
    · cases hnone.symm.trans hfields
  induction hk with
  | null =>
    refine ⟨fun _ _ _ _ _ hf => ?_, entriesReturn hr hs rfl List.nodup_nil (by simp)⟩
    cases hf
  | bool b => exact hleaf _ rfl rfl
  | number n => exact hleaf _ rfl rfl
  | string text => exact hleaf _ rfl rfl
  | reference q => exact hleaf _ rfl rfl
  | @list items _ ih =>
    refine ⟨fun s verbatim path t res hf hencode _ hknows => ?_, fun _ _ _ _ _ _ hfields => ?_⟩
    · obtain ⟨item, ts, hitem, hts, rfl⟩ := encode_list_eq_ok_iff.1 hencode
      exact restores_array hr hitem (forall₂_of_encodeItems hts)
        (fun v hv => Value.isFaithful_list hf hitem hv) (fun v hv => (ih v hv).1) hknows
    · cases hfields
  | @object fields hd hkeyed ih =>
    exact ⟨valueReturns_object hr ht hs (.object hd hkeyed) ih,
      entriesReturn hr hs rfl hd fun key v hv => (ih key v hv).1⟩

end

end TaggedMarkup
