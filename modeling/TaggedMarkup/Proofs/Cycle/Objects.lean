import TaggedMarkup.Proofs.Cycle.Fields
/-!
# Objects that encoding and decoding give back

An object is settled if its fields are: under its own type, as the payload of a case, or in place of
the only case of an inline variant. What is read back of tidy fields is settled in turn, given what
becomes of each of them and of the fields that are filled in.
-/
namespace TaggedMarkup

open Encoder Markup TaggedMarkup.Tree

variable {e : Encoder} {store : Store} {res : Resolutions} {s : Option Schema} {verbatim : Bool}
  {o : Option ObjectType} {path : Path} {skipCase : Bool} {fields : Entries Value}
  {entries : Entries Tree}

/-! ## Elements with a case marker -/

namespace Encoder.Marks

variable {case : String} {marked : Entries Tree}

theorem get?_variant (h : Marks case entries marked) (hv : Marker.variant ∉ entries.keys) :
    Entries.get? marked Marker.variant = some (.text case) := by
  cases h with
  | first => rw [Entries.get?_cons, if_pos rfl]
  | last =>
    rw [Entries.get?_append, Entries.get?_eq_none_iff.2 hv, Entries.get?_cons, if_pos rfl]
    rfl

theorem get?_of_ne (h : Marks case entries marked) {key : String} (hk : key ≠ Marker.variant) :
    Entries.get? marked key = Entries.get? entries key := by
  cases h with
  | first => rw [Entries.get?_cons, if_neg (Ne.symm hk)]
  | last =>
    rw [Entries.get?_append, Entries.get?_cons, if_neg (Ne.symm hk)]
    exact Option.or_none

theorem readBack_eq (h : Marks case entries marked) (d : Decoder) (o : Option ObjectType) :
    d.readBack o marked = d.readBack o entries := by
  have hmarker : ∀ a ∈ [(Marker.variant, Tree.text case)], a.1 = Marker.variant := by simp
  have hnothing : ∀ a ∈ ([] : Entries Tree), a.1 = Marker.variant := by simp
  cases h with
  | first =>
    have haround : d.readBack o ([(Marker.variant, .text case)] ++ entries ++ []) =
        d.readBack o entries := Decoder.readBack_around hmarker hnothing
    rwa [List.append_nil] at haround
  | last =>
    have haround : d.readBack o ([] ++ entries ++ [(Marker.variant, .text case)]) =
        d.readBack o entries := Decoder.readBack_around hnothing hmarker
    rwa [List.nil_append] at haround

theorem kindFree (h : Marks case entries marked) (hkind : Decoder.KindFree entries) :
    Decoder.KindFree marked := by
  intro t ht
  rcases h.mem_iff.1 ht with he | ht
  · exact absurd (Prod.mk.inj he).1 (by decide)
  · exact hkind t ht

theorem decode (h : Marks case entries marked) (hkind : Decoder.KindFree entries)
    (hv : Marker.variant ∉ entries.keys) (d : Decoder) (hint : Option Schema) :
    d.decode (Tree.map marked).reread hint =
      d.asCase hint (trimText case) fun o => d.readBack o entries := by
  rw [Decoder.decode_reread_marked (h.kindFree hkind) (h.get?_variant hv)]
  simp only [h.readBack_eq]

theorem casesUnpadded_iff (h : Marks case entries marked) (hv : Marker.variant ∉ entries.keys) :
    (Tree.map marked).casesUnpadded = true ↔
      Unpadded case ∧ ∀ key t, (key, t) ∈ entries → t.casesUnpadded = true := by
  have hne : ∀ key t, (key, t) ∈ entries → key ≠ Marker.variant := by
    rintro key t ht rfl
    exact hv (Entries.mem_keys_of_mem ht)
  rw [casesUnpadded_map_iff]
  constructor
  · intro hall
    refine ⟨?_, fun key t ht => ?_⟩
    · simpa [asText?] using hall Marker.variant (.text case) (h.mem_iff.2 (.inl rfl))
    · simpa [hne key t ht] using hall key t (h.mem_iff.2 (.inr ht))
  · rintro ⟨hcase, hall⟩ key t ht
    rcases h.mem_iff.1 ht with he | ht
    · obtain ⟨rfl, rfl⟩ := Prod.mk.inj he
      simpa [asText?] using hcase
    · rw [if_neg (hne key t ht)]
      exact hall key t ht

theorem hasParts (h : Marks case entries marked) : Tree.hasParts marked = true :=
  List.any_eq_true.2 ⟨_, h.mem_iff.2 (.inl rfl), by
    simp [show isChild Marker.variant = true by decide]⟩

theorem knowsEntries (h : Marks case entries marked) (hkind : Decoder.KindFree entries)
    (hknows : (e.reader res).Knows store (Tree.map marked).reread) :
    KnowsEntries e store res entries := by
  rw [reread_map, h.hasParts, if_pos rfl] at hknows
  intro key t ht hne hattribute
  have hread : readText marked = readText entries := by
    simp only [readText, content_trimmedEntries, entryText?,
      h.get?_of_ne (show Marker.text ≠ Marker.variant by decide),
      h.get?_of_ne (show Marker.verbatim ≠ Marker.variant by decide)]
  rw [get?_rereadEntries, ← h.get?_of_ne hne, ← hread, ← get?_rereadEntries] at ht
  exact hknows.of_mem_entries (Decoder.kind?_reread (h.kindFree hkind))
    (Entries.mem_of_get?_eq_some ht) hne hattribute

end Encoder.Marks

theorem casesUnpadded_plain_iff (hv : Marker.variant ∉ entries.keys) :
    (Tree.map entries).casesUnpadded = true ↔
      ∀ key t, (key, t) ∈ entries → t.casesUnpadded = true := by
  rw [casesUnpadded_map_iff]
  refine forall_congr' fun key => forall_congr' fun t => forall_congr' fun ht => ?_
  rw [if_neg]
  rintro rfl
  exact hv (Entries.mem_keys_of_mem ht)

theorem knowsEntries_plain (hkind : Decoder.KindFree entries) (hparts : hasParts entries = true)
    (hknows : (e.reader res).Knows store (Tree.map entries).reread) :
    KnowsEntries e store res entries := by
  rw [reread_map, if_pos hparts] at hknows
  intro key t ht hne hattribute
  exact hknows.of_mem_entries (Decoder.kind?_reread hkind) (Entries.mem_of_get?_eq_some ht) hne
    hattribute

/-! ## Cases of a decoded object -/

namespace Decoder

variable {d : Decoder} {hint : Option Schema} {case : String}
  {read : Option ObjectType → Entries Value}

theorem asCase_of_plainType? (h : plainType? (hint.map d.registry.resolve) = some o) :
    d.asCase hint case read =
      if o.bind ObjectType.tag = some case then .object (read o) else untyped case (read o) := by
  unfold asCase
  generalize hint.map d.registry.resolve = resolved at h
  match resolved with
  | none => exact Option.some.inj h ▸ rfl
  | some (.primitive .unknown) => exact Option.some.inj h ▸ rfl
  | some (.object p) => exact Option.some.inj h ▸ rfl

end Decoder

/-- The element of a case is decoded as its fields, under the case unless the type implies it. -/
theorem Encoder.Marks.decode_case {d : Decoder} {hint : Option Schema} {case : String}
    {marked : Entries Tree} (hm : Marks case entries marked) (hkind : Decoder.KindFree entries)
    (hv : Marker.variant ∉ entries.keys) (hcase : Unpadded case) {v : VariantType} {schema : Schema}
    (hs : hint.map d.registry.resolve = some (.variant v)) (hc : v.case? case = some schema) :
    d.decode (Tree.map marked).reread hint =
      if v.isInline then .object (d.readBack (d.registry.objectOf? schema) entries)
      else .object [(case, .object (d.readBack (d.registry.objectOf? schema) entries))] := by
  rw [hm.decode hkind hv, trimText_of_unpadded hcase, Decoder.asCase_of_case? hs hc]

/-! ## Settled objects -/

/-- A type leaves no element without parts if it declares a field that is filled in. -/
def Parted (o : Option ObjectType) : Prop :=
  ∃ t, o = some t ∧ ∃ f ∈ t.fields, f.2.optional = false

theorem ownFields_false (fields : Entries Value) : ownFields false fields = fields := by
  simp [ownFields]

theorem hasParts_of_isFieldName {key : String} (hk : IsFieldName key) (h : key ∈ entries.keys) :
    hasParts entries = true := by
  obtain ⟨t, ht⟩ := Entries.exists_of_mem_keys h
  exact List.any_eq_true.2 ⟨_, ht, by simp [isChild_of_isFieldName hk]⟩

theorem hasParts_of_lays (ho : ∀ t, o = some t → t.WellKeyed)
    (hl : e.Lays o path false fields entries) (h : Parted o ∨ ∃ f ∈ fields, f.1 ≠ Marker.text) :
    hasParts entries = true := by
  have hown : ∀ f ∈ fields, f.1 ≠ Marker.text → hasParts entries = true := by
    intro f hf hne
    obtain ⟨a, ha, hrel⟩ := hl.exists_entry (by rwa [ownFields_false])
    cases hrel with
    | attr hk _ _ => exact List.any_eq_true.2 ⟨_, ha, by simp [Marker.isAttribute, hk]⟩
    | text _ => exact absurd rfl hne
    | child hk _ => exact hasParts_of_isFieldName hk (Entries.mem_keys_of_mem ha)
  rcases h with ⟨t, rfl, f, hf, hoptional⟩ | ⟨f, hf, hne⟩
  · have hk := (ho t rfl).names f.1 f.2 hf
    by_cases hpresent : f.1 ∈ fields.keys
    · obtain ⟨v, hv⟩ := Entries.exists_of_mem_keys hpresent
      exact hown (f.1, v) hv (isFieldName_iff.1 hk).2.1
    · obtain ⟨u, hu⟩ := hl.exists_filled (mem_missingFields.2 ⟨⟨t, rfl, hf⟩, hpresent, hoptional⟩)
      exact hasParts_of_isFieldName hk (Entries.mem_keys_of_mem hu)
  · exact hown f hf hne

theorem eq_of_isPlaceholder {t : Tree} (h : t.isPlaceholder = true) :
    t = .null ∨ t = .array [] := by
  cases t with
  | map entries =>
    match entries with
    | [] => cases h
    | [(key, u)] =>
      by_cases hk : key = Marker.kind
      · subst hk
        cases u with
        | text k =>
          have htext : k = Kind.null.text ∨ k = Kind.array.text := by
            simpa [Tree.isPlaceholder, kindMarker?, marker?, asEntries?, asText?,
              Entries.get?_cons] using h
          rcases htext with rfl | rfl
          · exact .inl rfl
          · exact .inr rfl
        | _ => simp [Tree.isPlaceholder, kindMarker?, marker?, asEntries?, asText?,
            Entries.get?_cons] at h
      · simp [Tree.isPlaceholder, kindMarker?, marker?, asEntries?, Entries.get?_cons, hk] at h
    | _ :: _ :: _ => simp [Tree.isPlaceholder, asEntries?] at h
  | _ => cases h

/-- A settled field says something. -/
theorem FieldSettled.isPlaceholder {f : String × Value} (h : FieldSettled e store o f)
    {a : String × Tree} (ha : EncodesEntry e o path f a) : a.2.isPlaceholder = false := by
  by_contra hplaceholder
  rw [Bool.not_eq_false] at hplaceholder
  cases h with
  | attr hk _ =>
    obtain ⟨name, hname⟩ := attributeName?_of_isAttribute hk
    cases ha with
    | attr _ _ _ => cases hplaceholder
    | text _ => cases hplaceholder
    | child hchild _ => rw [(isFieldName_iff.1 hchild).1] at hname; cases hname
  | text _ =>
    cases ha with
    | attr _ _ _ => cases hplaceholder
    | text _ => cases hplaceholder
    | child hchild _ => exact absurd hchild (by decide)
  | @child key v hk hv filled =>
    obtain ⟨t, ht, hsettled⟩ := hv
    obtain rfl : a = (key, t) := ha.unique (.child hk (ht _))
    have hsame : ∀ w : Value, w.isEmptyContainer = true → v.same w = true → False := by
      intro w hw hvw
      rw [Value.isEmptyContainer_of_same hvw, hw] at filled
      cases filled
    rcases eq_of_isPlaceholder hplaceholder with rfl | rfl
    · have hiff := hsettled ⟨[]⟩ (by intro p hp; cases hp)
      rw [Decoder.decode_reread_null] at hiff
      exact hsame _ rfl (hiff.2 rfl)
    · have hiff := hsettled ⟨[]⟩ (by intro p hp; cases hp)
      rw [Decoder.decode_reread_array (by simp)] at hiff
      exact hsame _ rfl (hiff.2 rfl)

/-- A case that no field holds yet is kept before the fields. -/
theorem Decoder.untyped_of_not_mem {back : Entries Value} (hback : back.Distinct)
    (hnew : Marker.untypedCase ∉ back.keys) (case : String) :
    Decoder.untyped case back = .object ((Marker.untypedCase, .string case) :: back) := by
  refine congrArg Value.object (Entries.extend_eq_append hback fun key hk hmem => hnew ?_)
  have heq : key = Marker.untypedCase := List.mem_singleton.1 hmem
  exact heq ▸ hk

/-- A case that a field keeps has no entry of its own. -/
theorem Encoder.Lays.untypedCase_not_mem (ho : ∀ t, o = some t → t.WellKeyed)
    (hl : e.Lays o path true fields entries) (hdeclared : declared? o Marker.untypedCase = none) :
    Marker.untypedCase ∉ entries.keys := by
  intro hkey
  obtain ⟨t, ht⟩ := Entries.exists_of_mem_keys hkey
  rcases hl.cases_mem ht with ⟨f, hf, hrel⟩ | ⟨f, hf, hname, -⟩
  · rcases hrel.key with hname | ⟨-, hname⟩
    · have hname : Marker.untypedCase = f.1 := hname
      simp [ownFields, ← hname] at hf
    · have hname : Marker.untypedCase = Marker.verbatim := hname
      exact absurd hname (by decide)
  · have hname : Marker.untypedCase = f.1 := hname
    rw [hname, declared?_of_mem_missingFields ho hf] at hdeclared
    cases hdeclared

/-- A case that an object keeps in a field is read back with its blanks cut. -/
theorem same_untyped_iff {case read : String} (hd : fields.Distinct)
    (hcase : (Marker.untypedCase, .string case) ∈ fields) {back : Entries Value}
    (hback : back.Distinct) (hnew : Marker.untypedCase ∉ back.keys) :
    (Value.object fields).same (Decoder.untyped read back) = true ↔
      case = read ∧ (Value.object (ownFields true fields)).same (.object back) = true := by
  have hdistinct : Entries.Distinct ((Marker.untypedCase, Value.string read) :: back) :=
    Entries.distinct_cons.2 ⟨hnew, hback⟩
  have hown : (ownFields true fields).Distinct := hd.filter _
  have hmem : ∀ key v, (key, v) ∈ ownFields true fields ↔
      (key, v) ∈ fields ∧ key ≠ Marker.untypedCase := by
    intro key v
    simp [ownFields]
  rw [Decoder.untyped_of_not_mem hback hnew, Value.same_object_iff hd hdistinct,
    Value.same_object_iff hown hback]
  constructor
  · rintro ⟨heach, hkeys⟩
    refine ⟨?_, fun key v hv => ?_, fun key hk => ?_⟩
    · obtain ⟨w, hw, hsame⟩ := heach _ _ hcase
      rw [Entries.get?_cons, if_pos rfl] at hw
      cases hw
      simpa [Value.same] using hsame
    · obtain ⟨hv, hne⟩ := (hmem key v).1 hv
      obtain ⟨w, hw, hsame⟩ := heach key v hv
      rw [Entries.get?_cons, if_neg (Ne.symm hne)] at hw
      exact ⟨w, hw, hsame⟩
    · obtain ⟨v, hv⟩ := Entries.exists_of_mem_keys (hkeys key (List.mem_cons_of_mem _ hk))
      have hne : key ≠ Marker.untypedCase := fun heq => hnew (heq ▸ hk)
      exact Entries.mem_keys_of_mem ((hmem key v).2 ⟨hv, hne⟩)
  · rintro ⟨rfl, heach, hkeys⟩
    refine ⟨fun key v hv => ?_, fun key hk => ?_⟩
    · rw [Entries.get?_cons]
      by_cases hk : key = Marker.untypedCase
      · subst hk
        have hv := (Entries.get?_eq_some_iff hd).2 hv
        rw [(Entries.get?_eq_some_iff hd).2 hcase] at hv
        rw [if_pos rfl, ← Option.some.inj hv]
        exact ⟨_, rfl, Value.same_self_of_isScalar rfl⟩
      · rw [if_neg (Ne.symm hk)]
        exact heach key v ((hmem key v).2 ⟨hv, hk⟩)
    · rcases List.mem_cons.1 hk with heq | hk
      · have heq : key = Marker.untypedCase := heq
        exact heq ▸ Entries.mem_keys_of_mem hcase
      · obtain ⟨v, hv⟩ := Entries.exists_of_mem_keys (hkeys key hk)
        exact Entries.mem_keys_of_mem ((hmem key v).1 hv).1

/-- A type with a tag keeps no case in a field. -/
theorem tag_eq_none_of_untypedCase? {case : String} (h : untypedCase? fields o = some case) :
    o.bind ObjectType.tag = none := by
  unfold untypedCase? at h
  split at h
  · cases h
  · next hnone =>
    cases o with
    | none => rfl
    | some t =>
      cases ht : t.tag with
      | none => exact ht
      | some tag => simp [ht] at hnone

section

variable (hr : e.registry.WellKeyed) (ho : ∀ t, o = some t → t.WellKeyed)

/-- The fields that are read back, with the case that an object keeps in a field of its own. -/
def withCase (case : Option String) (back : Entries Value) : Value :=
  match case with
  | some case => Decoder.untyped (trimText case) back
  | none => .object back

include ho in
/-- The element of an object, unless it has no parts or has collapsed. -/
theorem decode_finishObject (ht : plainType? (s.map e.registry.resolve) = some o)
    (hd : fields.Distinct) (hl : e.Lays o path (untypedCase? fields o).isSome fields entries)
    (htag : ∀ tag, o.bind ObjectType.tag = some tag → Unpadded tag) {collapse : Bool}
    (hparts : untypedCase? fields o = none → o.bind ObjectType.tag = none →
      hasParts entries = true ∧ ¬ (collapse = true ∧ (entries.all fun t => t.2.isPlaceholder) = true))
    (hknows : (e.reader res).Knows store
      (finishObject (untypedCase? fields o) o collapse entries).reread) :
    KnowsEntries e store res entries ∧
      (e.reader res).decode (finishObject (untypedCase? fields o) o collapse entries).reread s =
        withCase (untypedCase? fields o) ((e.reader res).readBack o entries) ∧
      ((finishObject (untypedCase? fields o) o collapse entries).casesUnpadded = true ↔
        (∀ case, untypedCase? fields o = some case → Unpadded case) ∧
          ∀ key t, (key, t) ∈ entries → t.casesUnpadded = true) := by
  have hv := hl.variant_not_mem ho
  have hkind : Decoder.KindFree entries := fun t ht => hl.kind ho ht
  cases hcase : untypedCase? fields o with
  | some case =>
    rw [hcase] at hl hknows
    have hm : Marks case entries _ := .first
    rw [finishObject_some ho hd hl] at hknows ⊢
    refine ⟨hm.knowsEntries hkind hknows, ?_, ?_⟩
    · rw [hm.decode hkind hv, Decoder.asCase_of_plainType? ht,
        if_neg (by simp [tag_eq_none_of_untypedCase? hcase])]
      rfl
    · rw [hm.casesUnpadded_iff hv]
      simp
  | none =>
    rw [hcase] at hl hknows
    cases htagged : o.bind ObjectType.tag with
    | some tag =>
      have hm : Marks tag entries _ := .last
      rw [finishObject_tag ho hl htagged] at hknows ⊢
      refine ⟨hm.knowsEntries hkind hknows, ?_, ?_⟩
      · rw [hm.decode hkind hv, Decoder.asCase_of_plainType? ht, htagged,
          trimText_of_unpadded (htag tag htagged), if_pos rfl]
        rfl
      · rw [hm.casesUnpadded_iff hv]
        simp [htag tag htagged]
    | none =>
      obtain ⟨hentries, hfilled⟩ := hparts hcase htagged
      rw [finishObject_none htagged, if_neg hfilled] at hknows ⊢
      refine ⟨knowsEntries_plain hkind hentries hknows, ?_, ?_⟩
      · rw [Decoder.decode_reread_plain hentries hkind hv, Decoder.objectHint_of_plainType? ht]
        rfl
      · rw [casesUnpadded_plain_iff hv]
        simp

/-- An element that is read back as fields, the same exactly if no case in it is padded. -/
def Element (e : Encoder) (store : Store) (s : Option Schema) (fields : Entries Value) (t : Tree) :
    Prop :=
  ∀ res, (e.reader res).Knows store t.reread →
    ∃ back, (e.reader res).decode t.reread s = .object back ∧
      ((Value.object fields).same (.object back) = true ↔ t.casesUnpadded = true)

include ho in
/-- The element of settled fields, if it has parts and does not collapse. -/
theorem exists_element (ht : plainType? (s.map e.registry.resolve) = some o)
    (h : FieldsSettled e store o (untypedCase? fields o).isSome fields)
    (htag : ∀ tag, o.bind ObjectType.tag = some tag → Unpadded tag)
    (hparts : o.bind ObjectType.tag = none → Parted o ∨ ∃ f ∈ fields, f.1 ≠ Marker.text)
    {collapse : Bool} (hne : collapse = true → fields ≠ []) :
    ∃ entries, (∀ path, e.Lays o path (untypedCase? fields o).isSome fields entries) ∧
      Element e store s fields (finishObject (untypedCase? fields o) o collapse entries) := by
  obtain ⟨entries, hlays, hback⟩ := h.exists_lays ho
  have hdistinct := (hlays .root).distinct ho h.distinct
  refine ⟨entries, hlays, fun res hknows => ?_⟩
  have hfilled : untypedCase? fields o = none → o.bind ObjectType.tag = none →
      hasParts entries = true ∧
        ¬ (collapse = true ∧ (entries.all fun t => t.2.isPlaceholder) = true) := by
    intro hcase htagged
    have hl := hlays .root
    rw [hcase] at hl h
    refine ⟨hasParts_of_lays ho hl (hparts htagged), ?_⟩
    rintro ⟨hcollapse, hall⟩
    obtain ⟨f, hf⟩ := List.exists_mem_of_ne_nil fields (hne hcollapse)
    have hown : f ∈ ownFields false fields := by rwa [ownFields_false]
    obtain ⟨a, ha, hrel⟩ := hl.exists_entry hown
    have hplaceholder := List.all_eq_true.1 hall a ha
    rw [(h.each f hown).isPlaceholder hrel] at hplaceholder
    cases hplaceholder
  obtain ⟨hentries, hdecode, hcases⟩ :=
    decode_finishObject ho ht h.distinct (hlays .root) htag hfilled hknows
  obtain ⟨hkeys, hiff⟩ := hback res hentries
  rw [hdecode, hcases]
  cases hcase : untypedCase? fields o with
  | some case =>
    rw [hcase] at hkeys hiff
    have hnew : Marker.untypedCase ∉ ((e.reader res).readBack o entries).keys := by
      intro hk
      obtain ⟨v, hv⟩ := Entries.exists_of_mem_keys (hkeys _ hk)
      simp [ownFields] at hv
    refine ⟨_, rfl, ?_⟩
    change (Value.object fields).same (Decoder.untyped _ _) = true ↔ _
    rw [same_untyped_iff h.distinct (untypedCase?_eq_some hcase).1
      (Decoder.distinct_readBack hdistinct) hnew, eq_comm, trimText_eq_iff]
    simpa using and_congr_right fun _ => hiff
  | none =>
    rw [hcase] at hiff
    refine ⟨_, rfl, ?_⟩
    simpa [ownFields_false] using hiff

include hr ho in
/-- An object is settled under its own type, if it leaves an element with parts. -/
theorem settled_plain (ht : plainType? (s.map e.registry.resolve) = some o)
    (h : FieldsSettled e store o (untypedCase? fields o).isSome fields)
    (htag : ∀ tag, o.bind ObjectType.tag = some tag → Unpadded tag)
    (hparts : o.bind ObjectType.tag = none → Parted o ∨ ∃ f ∈ fields, f.1 ≠ Marker.text)
    (hne : fields ≠ []) : Settled e store s verbatim (.object fields) := by
  obtain ⟨entries, hlays, helement⟩ :=
    exists_element ho ht h htag hparts fun (_ : true = true) => hne
  refine ⟨_, fun path => (encode_object_eq_ok_iff hr).2 (.plain ht (hlays path)),
    fun res hknows => ?_⟩
  obtain ⟨back, hdecode, hiff⟩ := helement res hknows
  rw [hdecode, hiff]

include hr ho in
/-- An object under the only case of an inline variant is settled. -/
theorem settled_inline {v : VariantType} {case : String} {schema : Schema}
    (hs : s.map e.registry.resolve = some (.variant v)) (hinline : v.isInline = true)
    (hsole : v.soleCase? = some (case, schema)) (hschema : e.registry.objectOf? schema = o)
    (hcase : Unpadded case) (h : FieldsSettled e store o false fields) (hne : fields ≠ []) :
    Settled e store s verbatim (.object fields) := by
  obtain ⟨entries, hlays, hback⟩ := h.exists_lays ho
  simp only [ownFields_false] at hback
  have hv := (hlays .root).variant_not_mem ho
  have hkind : Decoder.KindFree entries := fun t ht => (hlays .root).kind ho ht
  have hm : Marks case entries _ := .first
  have hexplicit : explicitCase? v fields = none := explicitCase?_eq_none_of_isInline hinline
  refine ⟨.map ((Marker.variant, .text case) :: entries), fun path => ?_, fun res hknows => ?_⟩
  · rw [encode_object_eq_ok_iff hr, hs, ← finishCase_eq ho h.distinct (hlays path)]
    exact .implied hne hexplicit hsole (hschema ▸ hlays path)
  · rw [hm.decode_case hkind hv hcase hs (VariantType.case?_of_soleCase? hsole), hinline, if_pos rfl,
      hm.casesUnpadded_iff hv]
    change (Value.object fields).same
      (.object ((e.reader res).readBack (e.registry.objectOf? schema) entries)) = true ↔ _
    rw [hschema, (hback res (hm.knowsEntries hkind hknows)).2]
    exact (and_iff_right hcase).symm

include hr ho in
/-- The payload of a case that it is named by is settled. -/
theorem settled_case {v : VariantType} {case : String} {schema : Schema}
    (hs : s.map e.registry.resolve = some (.variant v)) (hinline : v.isInline = false)
    (hc : v.case? case = some schema) (hschema : e.registry.objectOf? schema = o)
    (hcase : Unpadded case) (h : FieldsSettled e store o false fields) :
    Settled e store s verbatim (.object [(case, .object fields)]) := by
  obtain ⟨entries, hlays, hback⟩ := h.exists_lays ho
  simp only [ownFields_false] at hback
  have hv := (hlays .root).variant_not_mem ho
  have hkind : Decoder.KindFree entries := fun t ht => (hlays .root).kind ho ht
  have hm : Marks case entries _ := .first
  have hexplicit : explicitCase? v [(case, Value.object fields)] = some (case, schema) :=
    explicitCase?_eq_some_iff.2 ⟨hinline, hc, _, rfl⟩
  refine ⟨.map ((Marker.variant, .text case) :: entries), fun path => ?_, fun res hknows => ?_⟩
  · rw [encode_object_eq_ok_iff hr, hs, ← finishCase_eq ho h.distinct (hlays path)]
    exact .explicit hexplicit rfl rfl (hschema ▸ hlays (path.child case))
  · have hsingle : ∀ back : Entries Value,
        (Value.object [(case, .object fields)]).same (.object [(case, .object back)]) = true ↔
          (Value.object fields).same (.object back) = true := by
      intro back
      rw [Value.same]
      simp [Value.sameFields, Entries.get?_cons]
    rw [hm.decode_case hkind hv hcase hs hc, hinline, if_neg Bool.false_ne_true,
      hm.casesUnpadded_iff hv]
    change (Value.object [(case, .object fields)]).same (.object [(case,
      .object ((e.reader res).readBack (e.registry.objectOf? schema) entries))]) = true ↔ _
    rw [hschema, hsingle, (hback res (hm.knowsEntries hkind hknows)).2]
    exact (and_iff_right hcase).symm

end

end TaggedMarkup
