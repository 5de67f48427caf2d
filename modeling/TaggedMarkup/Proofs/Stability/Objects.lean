import TaggedMarkup.Proofs.Stability.Bodies
/-!
# Objects that are written again

The element of an object is read as an object with the same entries, and written as an element like
it: its marker says the same case, and fields that were filled in are read as fields that are there,
so nothing is filled in the second time. An element of text alone is read as a scalar.
-/
namespace TaggedMarkup

open Encoder Markup TaggedMarkup.Tree

/-- The entries of an object in which nothing is taken for something else. -/
structure HoldEntries (e : Encoder) (store : Store) (res : Resolutions) (o : Option ObjectType)
    (entries : Entries Tree) : Prop where
  stable : haveStable e store entries o = true
  cases : ∀ key t, (key, t) ∈ entries → t.casesUnpadded = true
  known : KnowsEntries e store res entries

/-- What is read of the entries of an object is written as entries like them. -/
def RewritesEntries (e : Encoder) (res : Resolutions) (o : Option ObjectType)
    (entries : Entries Tree) : Prop :=
  ∀ path, ∃ fs, List.Forall₂ (EncodesEntry e o path) ((e.decoder res true).readBack o entries) fs ∧
    AlikeBodies fs entries

/-- What is read of the element of an object are fields that are written as an element like it. -/
def RewritesObject (e : Encoder) (res : Resolutions) (s : Option Schema) (o : Option ObjectType)
    (collapse : Bool) (t : Tree) : Prop :=
  ∃ back, (e.decoder res true).decode t.reread s = .object back ∧
    ∀ path, ∃ laid, e.Lays o path (untypedCase? back o).isSome back laid ∧
      Alike (finishObject (untypedCase? back o) o collapse laid) t

variable {e e' : Encoder} {store : Store} {res : Resolutions} {s : Option Schema} {verbatim : Bool}
  {o : Option ObjectType} {path : Path} {skipCase collapse : Bool} {fields : Entries Value}
  {entries : Entries Tree} {key : String} {t : Tree}

/-! ## From an element to its entries -/

theorem holdEntries_of_marks {case : String} {marked : Entries Tree} (hm : Marks case entries marked)
    (hkind : Decoder.KindFree entries) (hv : Marker.variant ∉ entries.keys)
    (ho : e.registry.typeAt s (some case) = o) (h : Holds e store res s (.map marked)) :
    HoldEntries e store res o entries ∧ Unpadded case := by
  have hmarker : Tree.variantMarker? (.map marked) = some case := by
    rw [Tree.variantMarker?, Tree.marker?, Tree.asEntries?, Option.bind_some, hm.get?_variant hv]
    rfl
  have hstable := (isStable_map (kind?_of_kindFree (hm.kindFree hkind)) h.stable).2
  rw [hmarker, ho] at hstable
  obtain ⟨hcase, heach⟩ := (hm.casesUnpadded_iff hv).1 h.cases
  refine ⟨⟨haveStable_iff.2 fun key t ht => ?_, heach, hm.knowsEntries hkind h.known⟩, hcase⟩
  exact haveStable_iff.1 hstable key t (hm.mem_iff.2 (.inr ht))

theorem holdEntries_plain (hkind : Decoder.KindFree entries) (hv : Marker.variant ∉ entries.keys)
    (hparts : hasParts entries = true) (ho : e.registry.typeAt s none = o)
    (h : Holds e store res s (.map entries)) : HoldEntries e store res o entries := by
  have hstable := (isStable_map (kind?_of_kindFree hkind) h.stable).2
  rw [variantMarker?_of_not_mem hv, ho] at hstable
  exact ⟨hstable, (casesUnpadded_plain_iff hv).1 h.cases, knowsEntries_plain hkind hparts h.known⟩

/-- Objects are no placeholders. -/
theorem isPlaceholder_of_kindFree (h : Decoder.KindFree entries) :
    (Tree.map entries).isPlaceholder = false := by
  have hkind := kind?_of_kindFree h
  unfold Tree.kind? at hkind
  by_contra hplaceholder
  obtain ⟨-, hmarks⟩ := Bool.and_eq_true_iff.1 (Bool.not_eq_false _ ▸ hplaceholder)
  obtain ⟨text, htext, hmarks⟩ := (Option.any_eq_true _ _).1 hmarks
  rw [htext, Option.bind_some] at hkind
  rcases Bool.or_eq_true_iff.1 hmarks with h | h
  · rw [eq_of_beq h, Kind.read?_text] at hkind
    cases hkind
  · rw [eq_of_beq h, Kind.read?_text] at hkind
    cases hkind

/-- Objects with entries that are alike. -/
theorem Tree.AlikeBodies.map_of_kindFree {fs : Entries Tree} (h : AlikeBodies fs entries)
    (hfs : Decoder.KindFree fs) (hentries : Decoder.KindFree entries) :
    Alike (.map fs) (.map entries) :=
  h.map ((isPlaceholder_of_kindFree hfs).trans (isPlaceholder_of_kindFree hentries).symm)

/-! ## Nothing is filled in again -/

section

variable (ho : ∀ u, o = some u → u.WellKeyed) (hl : e'.Lays o path skipCase fields entries)
  (hskip : skipCase = true → declared? o Marker.untypedCase = none)

include ho hl hskip

theorem missingFields_readBack :
    missingFields o ((e.decoder res true).readBack o entries).keys = [] := by
  refine List.eq_nil_iff_forall_not_mem.2 fun f hf => ?_
  have hdeclared := declared?_of_mem_missingFields ho hf
  obtain ⟨hmem, hback, hoptional⟩ := mem_missingFields.1 hf
  have hname : IsFieldName f.1 := isFieldName_of_mem_missingFields ho (Entries.mem_keys_of_mem hf)
  refine hback ?_
  have hkey : f.1 ∈ entries.keys := by
    by_cases hpresent : f.1 ∈ fields.keys
    · obtain ⟨v, hv⟩ := Entries.exists_of_mem_keys hpresent
      have hown : (f.1, v) ∈ ownFields skipCase fields := by
        refine List.mem_filter.2 ⟨hv, ?_⟩
        cases skipCase with
        | false => rfl
        | true =>
          have hne : f.1 ≠ Marker.untypedCase := by
            intro h
            rw [h, hskip rfl] at hdeclared
            cases hdeclared
          simpa using hne
      obtain ⟨a, ha, hrel⟩ := hl.exists_entry hown
      rcases hrel.key with hkey | ⟨htext, -⟩
      · exact hkey ▸ Entries.mem_keys_of_mem ha
      · exact absurd htext (isFieldName_iff.1 hname).2.1
    · obtain ⟨t, ht⟩ := hl.exists_filled (mem_missingFields.2 ⟨hmem, hpresent, hoptional⟩)
      exact Entries.mem_keys_of_mem ht
  obtain ⟨t, ht⟩ := Entries.exists_of_mem_keys hkey
  rw [Decoder.readBack_of_keeps rfl (hl.variant_not_mem ho), Entries.keys, List.map_map]
  have hreread : (f.1, t.reread) ∈ rereadEntries entries := by
    rw [rereadEntries, List.mem_append, List.mem_append]
    refine .inl (.inr (List.mem_map.2 ⟨(f.1, t), List.mem_filter.2 ⟨ht, ?_⟩, rfl⟩))
    exact isChild_of_isFieldName hname
  exact List.mem_map.2 ⟨_, hreread, rfl⟩

omit ho hl hskip in
theorem missingFields_cons {keys : List String} (h : missingFields o keys = []) (key : String) :
    missingFields o (key :: keys) = [] := by
  refine List.eq_nil_iff_forall_not_mem.2 fun f hf => ?_
  obtain ⟨hmem, hpresent, hoptional⟩ := mem_missingFields.1 hf
  have hmissing := mem_missingFields.2 ⟨hmem, fun hk => hpresent (List.mem_cons_of_mem _ hk),
    hoptional⟩
  rw [h] at hmissing
  cases hmissing

omit ho hl hskip in
theorem ownFields_cons_untyped {fields : Entries Value} (h : Marker.untypedCase ∉ fields.keys)
    (v : Value) : ownFields true ((Marker.untypedCase, v) :: fields) = fields := by
  have hown : ownFields true fields = fields := List.filter_eq_self.2 fun f hf => by
    have hne : f.1 ≠ Marker.untypedCase := fun hk => h (hk ▸ Entries.mem_keys_of_mem hf)
    simpa using hne
  simpa [ownFields] using hown

theorem RewritesEntries.exists_lays (h : RewritesEntries e res o entries) (path' : Path) :
    ∃ fs, e.Lays o path' false ((e.decoder res true).readBack o entries) fs ∧
      AlikeBodies fs entries := by
  obtain ⟨fs, hfs, halike⟩ := h path'
  refine ⟨fs, ⟨fs, [], ?_, ?_, (List.append_nil fs).symm⟩, halike⟩
  · rwa [ownFields_false]
  · rw [missingFields_readBack ho hl hskip]
    exact .nil

end

/-! ## Objects -/

/-- A case whose payload is read and written again. -/
theorem alike_finishCase (ho : ∀ u, o = some u → u.WellKeyed)
    (hl : e'.Lays o path false fields entries) (hd : fields.Distinct) {back : Entries Value}
    {fs : Entries Tree} {path' : Path} (hlays : e.Lays o path' false back fs) (hback : back.Distinct)
    (halike : AlikeBodies fs entries) (case : String) :
    Alike (finishCase case fs) (finishCase case entries) := by
  rw [finishCase_eq ho hback hlays, finishCase_eq ho hd hl]
  exact (halike.cons_child (by decide) _).map_of_kindFree
    (Marks.kindFree .first fun u hu => hlays.kind ho hu)
    (Marks.kindFree .first fun u hu => hl.kind ho hu)

theorem Rewrites.congr {u : Tree} (h : Rewrites e res s verbatim t) (hreread : t.reread = u.reread)
    (halike : Alike t u) : Rewrites e res s verbatim u := by
  intro path
  obtain ⟨w, hw, hwt⟩ := h path
  exact ⟨w, hreread ▸ hw, hwt.trans halike⟩

theorem takesWords_of_plainType? {resolved : Option Resolved} (h : plainType? resolved = some none) :
    takesWords resolved = false := by
  match resolved with
  | none => rfl
  | some (.primitive .unknown) => rfl
  | some (.object _) => cases h

section

variable (hplain : plainType? (s.map e.registry.resolve) = some none)
  (hl : e'.Lays none path skipCase fields entries) (hd : fields.Distinct)
  (hne : ∀ v, (Marker.text, v) ∈ fields → e'.wireText? v ≠ some "")
  (hparts : hasParts entries = false)

include hl hd hne hparts

/-- An element without parts is written as one of its text. -/
theorem alike_textEntries : Alike (.map (textEntries (readText entries))) (.map entries) := by
  have ho : ∀ u : ObjectType, none = some u → u.WellKeyed := by simp
  have hnil : ∀ {p : String → Bool} {es : Entries Tree}, (∀ a ∈ es, p a.1 = false) →
      es.filter (fun a => p a.1) = [] := fun h => List.filter_eq_nil_iff.2 (by simpa using h)
  have hapart := textEntries_apart (readText entries)
  have hnothing : ∀ a ∈ entries, Marker.isAttribute a.1 = false ∧ isChild a.1 = false := by
    simpa [hasParts] using hparts
  refine AlikeBodies.map_of_kindFree ⟨?_, ?_, ?_, ?_⟩ (fun u hu => ?_) fun u hu => hl.kind ho hu
  · rw [attributes, attributes, hnil fun a ha => (hapart a ha).1, hnil fun a ha => (hnothing a ha).1]
  · rw [hnil fun a ha => (hapart a ha).2, hnil fun a ha => (hnothing a ha).2]
    exact .nil
  · exact (entryText?_of_lays ho hd hl hne (.inl rfl)).symm
  · exact (entryText?_of_lays ho hd hl hne (.inr rfl)).symm
  · have hkind : Marker.isAttribute Marker.kind = true := by decide
    rw [(hapart _ hu).1] at hkind
    cases hkind

/-- An element without parts has a text, if it has anything. -/
theorem readText_ne_empty (hentries : entries ≠ []) : readText entries ≠ "" := by
  have ho : ∀ u : ObjectType, none = some u → u.WellKeyed := by simp
  intro hempty
  obtain ⟨⟨key, t⟩, ha⟩ := List.exists_mem_of_ne_nil entries hentries
  have hnothing : Marker.isAttribute key = false ∧ isChild key = false := by
    simpa using List.any_eq_false.1 hparts _ ha
  have hmarker : key = Marker.text ∨ key = Marker.verbatim := by
    simpa [isChild, hnothing.1, or_iff_not_imp_left] using hnothing.2
  rcases hl.isFieldName_or_text ho ha with ⟨hc, -⟩ | ⟨-, text, rfl⟩
  · rw [hnothing.2] at hc
    cases hc
  · have hnone := entryText?_of_lays ho hd hl hne hmarker
    rw [hempty, entryText?, entryText?, (Entries.get?_eq_some_iff (hl.distinct ho hd)).2 ha] at hnone
    cases hnone

include hplain in
/-- Text alone is read as a scalar, and written as the element of that scalar. -/
theorem rewrites_bare (hentries : entries ≠ []) (h : Holds e store res s (.map entries)) :
    Rewrites e res s false (.map entries) := by
  have ho : ∀ u : ObjectType, none = some u → u.WellKeyed := by simp
  have hs : takesScalar (s.map e.registry.resolve) = true := takesScalar_of_plainType? hplain
  have htext := readText_ne_empty hl hd hne hparts hentries
  have halike := alike_textEntries hl hd hne hparts
  have hwords : isPlain e store (textEntries (readText entries)) = true := by
    have hentries := (isStable_map (kind?_of_kindFree fun t ht => hl.kind ho ht) h.stable).1
    rw [isPlain, hparts, Bool.false_or, entryText?_of_lays ho hd hl hne (.inl rfl),
      entryText?_of_lays ho hd hl hne (.inr rfl)] at hentries
    rw [isPlain, hentries, Bool.or_true]
  have hreread : (Tree.map entries).reread = .text (readText entries) := by
    rw [reread_map, hparts, if_neg Bool.false_ne_true]
  have hknown := h.known
  rw [hreread] at hknown
  generalize readText entries = text at htext hwords halike hreread hknown
  rw [textEntries_of_ne htext] at hwords halike
  cases hp : Text.isPadded text with
  | true =>
    rw [hp, if_pos rfl] at hwords halike
    have htree : e.scalarTree true (.string text) = some (.verbatim text) := rfl
    have hholds : Holds e store res s (.verbatim text) := by
      refine ⟨?_, casesUnpadded_scalarTree htree, by rwa [Tree.reread_verbatim]⟩
      have hkind : Tree.kind? (.map [(Marker.verbatim, .text text)]) = none := rfl
      rw [Tree.verbatim, Tree.isStable, hkind]
      simp [hwords, haveStable, Registry.typeAt_of_plainType? hplain, declared?, Tree.isStable,
        takesWords]
    refine (rewrites_verbatim hs hholds (.inr hp)).congr ?_ halike
    rw [Tree.reread_verbatim, hreread]
  | false =>
    rw [hp, if_neg Bool.false_ne_true] at hwords halike
    have hu := unpadded_of_isPadded hp
    have hholds : Holds e store res s (.text text) := by
      refine ⟨?_, rfl, by rwa [Tree.reread_text hu]⟩
      rw [Tree.isStable, takesWords_of_plainType? hplain, Bool.not_false, Bool.or_true]
    have hbool : canonicalBool? text = none := by
      have hparts : hasParts [(Marker.text, .text text)] = false := by
        simp [hasParts, show Marker.isAttribute Marker.text = false by decide,
          show isChild Marker.text = false by decide]
      have hne : Marker.text ≠ Marker.verbatim := by decide
      simpa [isPlain, hparts, entryText?, Entries.get?_cons, asText?, hne] using hwords
    refine (rewrites_text hs hu hholds fun _ => ⟨rfl, hp, hbool⟩).congr ?_
      ((Alike.text text).trans halike)
    rw [Tree.reread_text hu, hreread]

end

section

variable (ho : ∀ u, o = some u → u.WellKeyed)
  (hplain : plainType? (s.map e.registry.resolve) = some o)

include ho hplain

/-- An object whose case a field keeps. -/
theorem rewritesObject_untyped (hd : fields.Distinct) {case : String} (hcase : untypedCase? fields o = some case)
    (hl : e'.Lays o path true fields entries)
    (h : Holds e store res s (finishObject (some case) o collapse entries))
    (hentries : HoldEntries e store res o entries → RewritesEntries e res o entries) :
    RewritesObject e res s o collapse (finishObject (some case) o collapse entries) := by
  have hv := hl.variant_not_mem ho
  have hkind : Decoder.KindFree entries := fun t ht => hl.kind ho ht
  obtain ⟨-, hdeclared⟩ := untypedCase?_eq_some hcase
  have htag := tag_eq_none_of_untypedCase? hcase
  rw [finishObject_some ho hd hl] at h ⊢
  have hm : Marks case entries _ := .first
  obtain ⟨hhold, hunpadded⟩ :=
    holdEntries_of_marks hm hkind hv (Registry.typeAt_of_plainType? hplain _) h
  have hmissing : missingFields o ((e.decoder res true).readBack o entries).keys = [] :=
    missingFields_readBack ho hl fun _ => hdeclared
  have hdistinct : ((e.decoder res true).readBack o entries).Distinct :=
    Decoder.distinct_readBack (hl.distinct ho hd)
  have hnew : Marker.untypedCase ∉ ((e.decoder res true).readBack o entries).keys := by
    intro hkey
    obtain ⟨w, hw⟩ := Entries.exists_of_mem_keys hkey
    rcases Decoder.mem_readBack hw with ⟨ha, -⟩ | ⟨-, -, u, hu, -⟩ | ⟨htext, -⟩
    · exact absurd ha (by decide)
    · exact hl.untypedCase_not_mem ho hdeclared (Entries.mem_keys_of_mem hu)
    · exact absurd htext (by decide)
  refine ⟨(Marker.untypedCase, .string case) :: (e.decoder res true).readBack o entries, ?_,
    fun path' => ?_⟩
  · rw [hm.decode hkind hv, trimText_of_unpadded hunpadded, Decoder.asCase_of_plainType? hplain,
      if_neg (by simp [htag]), Decoder.untyped_of_not_mem hdistinct hnew]
  · obtain ⟨fs, hfs, halike⟩ := hentries hhold path'
    generalize (e.decoder res true).readBack o entries = back at hmissing hnew hdistinct hfs
    have hagain := untypedCase?_untyped hcase case back
    have hlays : e.Lays o path' true ((Marker.untypedCase, .string case) :: back) fs := by
      refine ⟨fs, [], ?_, ?_, (List.append_nil fs).symm⟩
      · rwa [ownFields_cons_untyped hnew]
      · rw [Entries.keys_cons, missingFields_cons hmissing]
        exact .nil
    rw [hagain]
    refine ⟨fs, hlays, ?_⟩
    rw [finishObject_some ho (Entries.distinct_cons.2 ⟨hnew, hdistinct⟩) hlays]
    exact (halike.cons_child (by decide) _).map_of_kindFree
      (Marks.kindFree .first fun u hu => hlays.kind ho hu) (hm.kindFree hkind)

/-- An object whose type is written as its case. -/
theorem rewritesObject_tagged {tag : String} (htag : o.bind ObjectType.tag = some tag)
    (hl : e'.Lays o path false fields entries)
    (h : Holds e store res s (finishObject none o collapse entries))
    (hentries : HoldEntries e store res o entries → RewritesEntries e res o entries) :
    RewritesObject e res s o collapse (finishObject none o collapse entries) := by
  have hv := hl.variant_not_mem ho
  have hkind : Decoder.KindFree entries := fun t ht => hl.kind ho ht
  rw [finishObject_tag ho hl htag] at h ⊢
  have hm : Marks tag entries _ := .last
  obtain ⟨hhold, hunpadded⟩ :=
    holdEntries_of_marks hm hkind hv (Registry.typeAt_of_plainType? hplain _) h
  refine ⟨(e.decoder res true).readBack o entries, ?_, fun path' => ?_⟩
  · rw [hm.decode hkind hv, trimText_of_unpadded hunpadded, Decoder.asCase_of_plainType? hplain,
      if_pos htag]
  · obtain ⟨fs, hlays, halike⟩ := (hentries hhold).exists_lays ho hl (by simp) path'
    have huntyped : untypedCase? ((e.decoder res true).readBack o entries) o = none := by
      obtain ⟨u, rfl, hu⟩ := Option.bind_eq_some_iff.1 htag
      rw [untypedCase?, if_pos (by simp [hu])]
    rw [huntyped]
    refine ⟨fs, hlays, ?_⟩
    rw [finishObject_tag ho hlays htag]
    exact (halike.append_child (by decide) _).map_of_kindFree
      (Marks.kindFree .last fun u hu => hlays.kind ho hu) (hm.kindFree hkind)

/-- An object without a marker, given that no field of it is read as a case. -/
theorem rewritesObject_unmarked (htag : o.bind ObjectType.tag = none)
    (hl : e'.Lays o path false fields entries) (hparts : hasParts entries = true)
    (hcollapse : ¬ (collapse = true ∧ (entries.all fun t => t.2.isPlaceholder) = true))
    (h : Holds e store res s (.map entries))
    (hentries : HoldEntries e store res o entries → RewritesEntries e res o entries)
    (huntyped : HoldEntries e store res o entries →
      untypedCase? ((e.decoder res true).readBack o entries) o = none) :
    RewritesObject e res s o collapse (.map entries) := by
  have hv := hl.variant_not_mem ho
  have hkind : Decoder.KindFree entries := fun t ht => hl.kind ho ht
  have hhold := holdEntries_plain hkind hv hparts (Registry.typeAt_of_plainType? hplain _) h
  have hhint : (e.decoder res true).objectHint s = o :=
    Decoder.objectHint_of_plainType? hplain
  refine ⟨(e.decoder res true).readBack o entries, ?_, fun path' => ?_⟩
  · rw [Decoder.decode_reread_plain hparts hkind hv, hhint]
  · obtain ⟨fs, hlays, halike⟩ := (hentries hhold).exists_lays ho hl (by simp) path'
    rw [huntyped hhold]
    refine ⟨fs, hlays, ?_⟩
    have hagain : ¬ (collapse = true ∧ (fs.all fun t => t.2.isPlaceholder) = true) := by
      rintro ⟨hcollapsing, hall⟩
      refine hcollapse ⟨hcollapsing, List.all_eq_true.2 ?_⟩
      exact halike.symm.isPlaceholder_of (hl.textsBeside ho) (hlays.textsBeside ho) (List.all_eq_true.1 hall)
    rw [finishObject_none htag, if_neg hagain]
    exact halike.map_of_kindFree (fun u hu => hlays.kind ho hu) hkind

end

/-- The payload of a case, which is not read as nothing if it is something. -/
theorem exists_rewritten_payload {w : VariantType} {case : String} {schema : Schema}
    (hs : s.map e.registry.resolve = some (.variant w)) (hcase : w.case? case = some schema)
    (hr : e.registry.WellKeyed) (hd : fields.Distinct)
    (hl : e'.Lays (e.registry.objectOf? schema) path false fields entries)
    (h : Holds e store res s (finishCase case entries))
    (hentries : HoldEntries e store res (e.registry.objectOf? schema) entries →
      RewritesEntries e res (e.registry.objectOf? schema) entries) :
    ∃ back, (e.decoder res true).decode (finishCase case entries).reread s =
        (if w.isInline then .object back else .object [(case, .object back)]) ∧
      (back = [] → entries = []) ∧
      ∀ path', ∃ fs, e.Lays (e.registry.objectOf? schema) path' false back fs ∧
        Alike (finishCase case fs) (finishCase case entries) := by
  have ho : ∀ u, e.registry.objectOf? schema = some u → u.WellKeyed := fun u hu => hr.of_objectOf? hu
  have hv := hl.variant_not_mem ho
  have hkind : Decoder.KindFree entries := fun t ht => hl.kind ho ht
  have hm : Marks case entries _ := .first
  have hdistinct : ((e.decoder res true).readBack (e.registry.objectOf? schema) entries).Distinct :=
    Decoder.distinct_readBack (hl.distinct ho hd)
  rw [finishCase_eq ho hd hl] at h
  obtain ⟨hhold, hunpadded⟩ :=
    holdEntries_of_marks hm hkind hv (Registry.typeAt_of_case? hs hcase) h
  have hrewrites := hentries hhold
  refine ⟨(e.decoder res true).readBack (e.registry.objectOf? schema) entries, ?_, fun hnil => ?_,
    fun path' => ?_⟩
  · rw [finishCase_eq ho hd hl]
    exact hm.decode_case hkind hv hunpadded hs hcase
  · obtain ⟨fs, hfs, halike⟩ := hrewrites path
    rw [hnil] at hfs
    cases hfs
    exact halike.eq_nil (hl.textsBeside ho)
  · obtain ⟨fs, hlays, halike⟩ := hrewrites.exists_lays ho hl (by simp) path'
    exact ⟨fs, hlays, alike_finishCase ho hl hd hlays hdistinct halike case⟩

end TaggedMarkup
