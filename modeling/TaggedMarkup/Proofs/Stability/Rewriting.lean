import TaggedMarkup.Proofs.Stability.Objects
/-!
# Stable elements are written again

What is read of a stable element is written as an element like it, by induction on the value that the
element was written for. The fields of an object may have been filled in, with fewer and fewer
defaults leading to each other, so a second induction is on their number.
-/
namespace TaggedMarkup

open Encoder Markup TaggedMarkup.Tree

variable {r : Registry} {c : Convention} {store : Store} {res : Resolutions} {chain limit : Nat}
  {s : Option Schema} {verbatim : Bool} {o : Option ObjectType} {path : Path} {skipCase : Bool}
  {fields : Entries Value} {entries : Entries Tree} {t : Tree} {v : Value}

/-- The elements of a value are written again. -/
def ValueRewrites (r : Registry) (c : Convention) (store : Store) (res : Resolutions)
    (chain limit : Nat) (v : Value) : Prop :=
  ∀ s verbatim path t, Tidy (chained r c limit) store true (.value s) v →
    (chained r c chain).encode v s verbatim path = .ok t →
    (verbatim = true → s.map r.resolve = some (.primitive .string)) →
    Holds (chained r c limit) store res s t → Rewrites (chained r c limit) res s verbatim t

/-- The entries of a value are written again. -/
def EntriesRewrite (r : Registry) (c : Convention) (store : Store) (res : Resolutions)
    (chain limit : Nat) (v : Value) : Prop :=
  ∀ fields o path skipCase entries, objectFields? v = some fields →
    Tidy (chained r c limit) store true (.body o) (.object fields) → Known (chained r c limit) o →
    (chained r c chain).Lays o path skipCase fields entries →
    HoldEntries (chained r c limit) store res o entries →
    RewritesEntries (chained r c limit) res o entries

/-- The default of a field is written again. -/
def FillsRewrite (r : Registry) (c : Convention) (store : Store) (res : Resolutions)
    (chain limit : Nat) : Prop :=
  ∀ o name f path t, .object o ∈ r.types → (name, f) ∈ o.fields →
    fillField r c chain f path = .ok t → Holds (chained r c limit) store res (some f.schema) t →
    Rewrites (chained r c limit) res (some f.schema) f.verbatim t

/-! ## Cases that fields keep -/

/-- An object without a type is read as an object, unless it is text alone. -/
theorem asString?_decode_object (hr : r.WellKeyed) (hk : (Value.object fields).Keyed)
    (hnotext : (Value.object fields).isText = false)
    (ht : (chained r c chain).encode (.object fields) none verbatim path = .ok t) :
    (((chained r c limit).decoder res true).decode t.reread none).asString? = none := by
  cases (encode_object_eq_ok_iff (e := chained r c chain) hr).1 ht with
  | blank hplain _ => cases hplain
  | @plain _ o entries hplain hl =>
    obtain rfl : none = o := Option.some.inj hplain
    have ho : ∀ u : ObjectType, none = some u → u.WellKeyed := by simp
    have hv := hl.variant_not_mem ho
    have hkind : Decoder.KindFree entries := fun t ht => hl.kind ho ht
    have hfinished := finished_finishObject ho hk.distinct hl (untypedCase? fields none) true
    generalize finishObject (untypedCase? fields none) none true entries = t at hfinished
    generalize hcase : (untypedCase? fields none).or (Option.bind none ObjectType.tag) = case
      at hfinished
    cases hfinished with
    | blank _ =>
      rw [Decoder.decode_reread_null]
      rfl
    | bare hspeaks =>
      obtain ⟨a, ha, -⟩ := hspeaks rfl
      obtain ⟨f, hf⟩ : ∃ f, f ∈ fields := by
        rcases hl.cases_mem ha with ⟨f, hm, -⟩ | ⟨f, hm, -⟩
        · exact ⟨f, List.mem_of_mem_filter hm⟩
        · cases hm
      have hparts : ∃ f ∈ fields, f.1 ≠ Marker.text :=
        Value.exists_of_isText hnotext (List.ne_nil_of_mem hf)
      rw [(Option.or_eq_none_iff.1 hcase).1] at hl
      rw [Decoder.decode_reread_plain (hasParts_of_lays ho hl (.inr hparts)) hkind hv]
      rfl
    | case hm =>
      rw [hm.decode hkind hv, Decoder.asCase_of_plainType? (o := none) rfl]
      split <;> rfl

/-- No value without a type is read as a string, unless it is one or text alone. -/
theorem asString?_decode (hr : r.WellKeyed) (hk : v.Keyed)
    (hlegible : v.isLegible (c.locates store) = true) (hv : v.asString? = none)
    (hnotext : v.isText = false) (ht : (chained r c chain).encode v none verbatim path = .ok t)
    (hknows : ((chained r c limit).reader res).Knows store t.reread) :
    (((chained r c limit).decoder res true).decode t.reread none).asString? = none := by
  cases v with
  | null =>
    rw [encode] at ht
    obtain rfl := Except.ok.inj ht
    rw [Decoder.decode_reread_null]
    rfl
  | bool b =>
    have htree := encode_scalar (by simp [scalarTree]) ht
    obtain rfl := Option.some.inj htree
    rw [Decoder.decode_reread_boolean]
    rfl
  | number n =>
    have htree := encode_scalar (by simp [scalarTree]) ht
    obtain rfl := Option.some.inj htree
    rw [Value.isLegible] at hlegible
    obtain ⟨m, hm⟩ := Option.isSome_iff_exists.1 hlegible
    rw [decode_text_eq_settle n.unpadded_text hknows]
    generalize chained r c limit = e
    cases hspelled : e.convention.spelled? store n.text with
    | some q =>
      rw [Encoder.settle, hspelled]
      rfl
    | none =>
      have hs : takesScalar ((none : Option Schema).map e.registry.resolve) = true := rfl
      rw [settle_of_canonical? hspelled hs rfl hm]
      rfl
  | string text => cases hv
  | reference q =>
    rw [encode] at ht
    obtain rfl := Except.ok.inj ht
    rw [Value.isLegible, Convention.locates] at hlegible
    obtain ⟨found, hfound⟩ := Option.isSome_iff_exists.1 hlegible
    have hfound : (chained r c limit).convention.spelled? store
        ((chained r c chain).convention.render q) = some found := hfound
    rw [decode_text_eq_settle (Convention.spelled?_eq_some hfound).2.1 hknows, Encoder.settle, hfound]
    rfl
  | list items =>
    obtain ⟨item, ts, hitem, hts, rfl⟩ := encode_list_eq_ok_iff.1 ht
    rw [decode_encoded_list (e := chained r c chain) hr (forall₂_of_encodeItems hts)]
    rfl
  | object fields => exact asString?_decode_object hr hk hnotext ht

/-- No field of an object without a marker is read as its case. -/
theorem untypedCase?_readBack (hr : r.WellKeyed) (ho : ∀ u, o = some u → u.WellKeyed)
    (hk : (Value.object fields).Keyed)
    (hlegible : (Value.object fields).isLegible (c.locates store) = true)
    (hl : (chained r c chain).Lays o path skipCase fields entries)
    (hcase : untypedCase? fields o = none) (hapart : NoTextCase o fields)
    (h : HoldEntries (chained r c limit) store res o entries) :
    untypedCase? (((chained r c limit).decoder res true).readBack o entries) o = none := by
  rw [untypedCase?_eq] at hcase ⊢
  split
  · next hkeeps =>
    rw [if_pos hkeeps] at hcase
    have hdeclared := declared?_of_keepsCase hkeeps
    have hdistinct := hl.distinct ho hk.distinct
    refine Option.bind_eq_none_iff.2 fun w hw => ?_
    rcases Decoder.mem_readBack (Entries.mem_of_get?_eq_some hw) with
      ⟨ha, -⟩ | ⟨-, -, t, ht, rfl⟩ | ⟨htext, -⟩
    · exact absurd ha (by decide)
    · have hname : IsFieldName Marker.untypedCase := by decide
      rcases hl.cases_child hname ht with ⟨v, hm, hencode⟩ | ⟨f, hm, -⟩
      · have hmem : (Marker.untypedCase, v) ∈ fields := List.mem_of_mem_filter hm
        have hstring := Option.bind_eq_none_iff.1 hcase v
          ((Entries.get?_eq_some_iff hk.distinct).2 hmem)
        rw [hdeclared] at hencode ⊢
        exact asString?_decode hr (hk.of_mem_fields hmem)
          (Value.isLegible_object_iff.1 hlegible _ _ hmem).2 hstring (hapart hkeeps v hmem) hencode
          (h.known.child hdistinct hname ht)
      · rw [declared?_of_mem_missingFields ho hm] at hdeclared
        cases hdeclared
    · exact absurd htext (by decide)
  · rfl

/-! ## Values -/

theorem encode_of_encode_scalar (hv : v.hasText = true)
    (h : (chained r c chain).encode v s verbatim path = .ok t) :
    (chained r c limit).encode v s verbatim path = .ok t := by
  cases v with
  | null | list _ | object _ => cases hv
  | _ =>
    rw [encode] at h ⊢
    exact h

/-- Fields with verbatim text are strings. -/
def Registry.VerbatimStrings (r : Registry) : Prop :=
  ∀ o name f, .object o ∈ r.types → (name, f) ∈ o.fields → f.verbatim = true →
    r.resolve f.schema = .primitive .string

/-- The schema of verbatim text is spelt out as that of strings. -/
def TypeDef.hasVerbatimStrings : TypeDef → Bool
  | .object o => o.fields.all fun f => !f.2.verbatim || f.2.schema == .string
  | .variant _ => true

theorem Analytics.registry_verbatimStrings : registry.VerbatimStrings := by
  have hcheck : registry.types.all TypeDef.hasVerbatimStrings = true := by decide +kernel
  intro o name f ho hf hverbatim
  have hfield := List.all_eq_true.1 (List.all_eq_true.1 hcheck _ ho) _ hf
  rw [hverbatim, Bool.not_true, Bool.false_or, beq_iff_eq] at hfield
  rw [hfield]
  rfl

section

variable (h : Refillable (chained r c limit)) (hs : r.VerbatimStrings)
  (hf : FillsRewrite r c store res chain limit)

include h hs hf

theorem entriesRewrite (hv : objectFields? v = some fields) (hk : (Value.object fields).Keyed)
    (hlegible : (Value.object fields).isLegible (c.locates store) = true)
    (heach : ∀ key v, (key, v) ∈ fields → ValueRewrites r c store res chain limit v) :
    EntriesRewrite r c store res chain limit v := by
  intro fields o path skipCase entries hfields htidy hknown hl hhold path'
  cases hv.symm.trans hfields
  have ho := h.wellKeyed hknown
  have hdistinct := hl.distinct ho hk.distinct
  have hne : ∀ v, (Marker.text, v) ∈ fields → (chained r c chain).wireText? v ≠ some "" := by
    intro v hm
    obtain ⟨hstring, hv⟩ := Value.isLegible_object_iff.1 hlegible _ _ hm
    exact wireText?_ne_empty hv (hstring rfl)
  refine exists_alikeBodies ho hk.distinct hl hne hhold.known (hl.variant_not_mem ho)
    (fun key t hkey ht => ?_) path'
  have hholds : Holds (chained r c limit) store res ((declared? o key).map Field.schema) t :=
    ⟨haveStable_iff.1 hhold.stable key t ht, hhold.cases key t ht,
      hhold.known.child hdistinct hkey ht⟩
  rcases hl.cases_child hkey ht with ⟨w, hm, hencode⟩ | ⟨f, hm, hfill⟩
  · have hmem : (key, w) ∈ fields := List.mem_of_mem_filter hm
    refine heach _ _ hmem _ _ _ _ (htidy.of_mem_body hmem hkey) hencode (fun hverbatim => ?_) hholds
    obtain ⟨f, hf, hquoted⟩ := (Option.any_eq_true _ _).1 hverbatim
    obtain ⟨u, rfl, hu⟩ := Option.bind_eq_some_iff.1 hf
    rw [hf, Option.map_some, Option.map_some,
      hs u _ f (hknown u rfl) (Entries.mem_of_get?_eq_some hu) hquoted]
  · have hdeclared : declared? o key = some f := declared?_of_mem_missingFields ho hm
    obtain ⟨⟨u, rfl, hmem⟩, -, -⟩ := mem_missingFields.1 hm
    rw [hdeclared] at hholds ⊢
    exact hf u key f _ t (hknown u rfl) hmem hfill hholds

omit hs hf in
/-- The object of a type is written again, unless it has collapsed or is text alone. -/
theorem rewritesObject_or (hplain : plainType? (s.map r.resolve) = some o)
    (hk : (Value.object fields).Keyed)
    (hlegible : (Value.object fields).isLegible (c.locates store) = true)
    (hentries : EntriesRewrite r c store res chain limit (.object fields))
    (htidy : Tidy (chained r c limit) store true (.value s) (.object fields))
    (hl : (chained r c chain).Lays o path (untypedCase? fields o).isSome fields entries)
    {collapse : Bool} (hroot : collapse = false → o ≠ none)
    (hholds : Holds (chained r c limit) store res s
      (finishObject (untypedCase? fields o) o collapse entries)) :
    (collapse = true ∧ finishObject (untypedCase? fields o) o collapse entries = .null) ∨
      (o = none ∧ Rewrites (chained r c limit) res s false
        (finishObject (untypedCase? fields o) o collapse entries)) ∨
      RewritesObject (chained r c limit) res s o collapse
        (finishObject (untypedCase? fields o) o collapse entries) := by
  have hknown : Known (chained r c limit) o := fun _ =>
    mem_types_of_plainType? hplain
  have ho := h.wellKeyed hknown
  obtain ⟨hapart, hbody⟩ := htidy.of_plainType? hplain
  have hlaid := fun hhold => hentries fields o path _ entries rfl hbody hknown hl hhold
  cases hcase : untypedCase? fields o with
  | some case =>
    rw [hcase] at hl hholds
    exact .inr (.inr (rewritesObject_untyped ho hplain hk.distinct hcase hl hholds hlaid))
  | none =>
    rw [hcase] at hl hholds
    cases htag : o.bind ObjectType.tag with
    | some tag => exact .inr (.inr (rewritesObject_tagged ho hplain htag hl hholds hlaid))
    | none =>
      rw [finishObject_none htag] at hholds ⊢
      split at hholds
      · next hcollapse =>
        rw [if_pos hcollapse]
        exact .inl ⟨hcollapse.1, rfl⟩
      · next hcollapse =>
        rw [if_neg hcollapse]
        cases hparts : hasParts entries with
        | true =>
          exact .inr (.inr (rewritesObject_unmarked ho hplain htag hl hparts hcollapse hholds hlaid
            fun hhold => untypedCase?_readBack h.keyed ho hk hlegible hl hcase hapart hhold))
        | false =>
          cases o with
          | some u =>
            have hparted : Parted (some u) := ⟨u, rfl, h.parted u (hknown u rfl) htag⟩
            rw [hasParts_of_lays ho hl (.inl hparted)] at hparts
            cases hparts
          | none =>
            refine .inr (.inl ⟨rfl, rewrites_bare hplain hl hk.distinct (fun v hm => ?_) hparts ?_
              hholds⟩)
            · obtain ⟨hstring, hv⟩ := Value.isLegible_object_iff.1 hlegible _ _ hm
              exact wireText?_ne_empty hv (hstring rfl)
            · rintro rfl
              cases collapse with
              | true => exact hcollapse ⟨rfl, rfl⟩
              | false => exact hroot rfl rfl

omit h hs hf in
theorem exists_encodeItems_alike {e : Encoder} {item : Option Schema} {ts : List Tree}
    (heach : ∀ t ∈ ts, Rewrites e res item false t) (path : Path) (i : Nat) :
    ∃ us, e.encodeItems (ts.map fun t => (e.decoder res true).decode t.reread item) item path i =
      .ok us ∧ List.Forall₂ Alike us ts := by
  induction ts generalizing i with
  | nil => exact ⟨[], by rw [List.map_nil, encodeItems], .nil⟩
  | cons t rest ih =>
    obtain ⟨u, hu, halike⟩ := heach t List.mem_cons_self (path.child (toString i))
    obtain ⟨us, hus, hrest⟩ := ih (fun w hw => heach w (List.mem_cons_of_mem _ hw)) (i + 1)
    exact ⟨u :: us, by rw [List.map_cons, encodeItems, hu, hus]; rfl, .cons halike hrest⟩

omit hs hf in
theorem rewrites_list {items : List Value}
    (hlegible : (Value.list items).isLegible (c.locates store) = true)
    (heach : ∀ v ∈ items, v.isLegible (c.locates store) = true →
      ValueRewrites r c store res chain limit v) :
    ValueRewrites r c store res chain limit (.list items) := by
  intro s verbatim path t htidy ht _ hholds path'
  have hr : r.WellKeyed := h.keyed
  obtain ⟨item, ts, hitem, hts, rfl⟩ := encode_list_eq_ok_iff.1 ht
  have hencoded := forall₂_of_encodeItems hts
  have hhint : ((chained r c limit).decoder res true).itemHint s = item :=
    Decoder.itemHint_of_itemType? hitem
  have hitems : ∀ t ∈ ts, Rewrites (chained r c limit) res item false t := by
    intro t ht
    obtain ⟨v, hv, q, hq⟩ := mem_of_forall₂_right hencoded ht
    refine heach v hv (Value.isLegible_list_iff.1 hlegible v hv) item false q t
      (htidy.of_mem_list hitem hv) hq (by simp)
      ⟨isStable_array hholds.stable hitem ht, casesUnpadded_array_iff.1 hholds.cases t ht,
        knows_of_mem_array hholds.known ht⟩
  obtain ⟨us, hus, halike⟩ := exists_encodeItems_alike hitems path' 0
  have hkeeps : ∀ vs : List Value,
      vs.filter ((chained r c limit).decoder res true).keeps = vs := fun vs =>
    List.filter_eq_self.2 fun v _ => rfl
  rw [decode_encoded_list (e := chained r c chain) hr hencoded, hhint, hkeeps]
  exact ⟨.array us, encode_list_eq_ok_iff.2 ⟨item, us, hitem, hus, rfl⟩, .array halike⟩

omit hs hf in
/-- The induction step for objects: the entries are those of the object, or of the payload of a
case. -/
theorem rewrites_object (ha : (chained r c limit).FillsAlike) (hk : (Value.object fields).Keyed)
    (hlegible : (Value.object fields).isLegible (c.locates store) = true)
    (hentries : EntriesRewrite r c store res chain limit (.object fields))
    (hinner : ∀ key v, (key, v) ∈ fields → v.isLegible (c.locates store) = true →
      EntriesRewrite r c store res chain limit v) :
    ValueRewrites r c store res chain limit (.object fields) := by
  intro s verbatim path t htidy ht hverbatim hholds
  have hr : r.WellKeyed := h.keyed
  have hshape := (encode_object_eq_ok_iff (e := chained r c chain) hr).1 ht
  generalize hresolved : s.map (chained r c chain).registry.resolve = resolved at hshape
  have hresolved : s.map r.resolve = resolved := hresolved
  have hobjectOf : ∀ schema, Known (chained r c limit) (r.objectOf? schema) :=
    fun schema t ht => Registry.mem_types_of_objectOf? ht
  cases hshape with
  | @plain _ o entries hplain hl =>
    rw [← hresolved] at hplain
    rcases rewritesObject_or h hplain hk hlegible hentries htidy hl (by simp) hholds with
      ⟨-, hnull⟩ | ⟨rfl, hbare⟩ | ⟨back, hback, hlays⟩
    · rw [hnull] at hholds ⊢
      exact rewrites_null hr ha hholds
    · cases verbatim with
      | false => exact hbare
      | true =>
        rw [hverbatim rfl] at hplain
        cases hplain
    · intro path'
      obtain ⟨laid, hlaid, halike⟩ := hlays path'
      rw [hback]
      exact ⟨_, (encode_object_eq_ok_iff hr).2 (.plain hplain hlaid), halike⟩
  | blank _ _ => exact rewrites_null hr ha hholds
  | @explicit v case schema payload inner entries hc hfields hp hl =>
    obtain ⟨hinline, hcase, -⟩ := explicitCase?_eq_some_iff.1 hc
    have hpayload : (case, payload) ∈ fields := by simp [hfields]
    have hdinner : inner.Distinct := distinct_of_objectFields? (hk.of_mem_fields hpayload) hp
    have hpayloadlegible := (Value.isLegible_object_iff.1 hlegible _ _ hpayload).2
    obtain ⟨back, hback, -, hlays⟩ := exists_rewritten_payload (e := chained r c limit) hresolved
      hcase hr hdinner hl hholds fun hhold =>
        hinner case payload hpayload hpayloadlegible inner _ _ _ _ hp
          (htidy.of_explicit hresolved hc hfields hp) (hobjectOf schema) hl hhold
    intro path'
    obtain ⟨fs, hfs, halike⟩ := hlays (path'.child case)
    rw [hback, hinline, if_neg Bool.false_ne_true]
    exact ⟨_, encode_explicit hr hresolved hinline hcase hfs, halike⟩
  | @implied v case schema entries hne hc hsole hl =>
    have hcase := VariantType.case?_of_soleCase? hsole
    obtain ⟨back, hback, hnil, hlays⟩ := exists_rewritten_payload (e := chained r c limit)
      hresolved hcase hr hk.distinct hl hholds fun hhold =>
        hentries fields _ _ _ _ rfl (htidy.of_implied hresolved hc hsole) (hobjectOf schema) hl hhold
    intro path'
    cases hinline : v.isInline with
    | true =>
      obtain ⟨fs, hfs, halike⟩ := hlays path'
      have hsomething : back ≠ [] := by
        intro hempty
        obtain ⟨f, hf⟩ := List.exists_mem_of_ne_nil fields hne
        obtain ⟨a, ha, -⟩ := hl.exists_entry (by rwa [ownFields_false])
        rw [hnil hempty] at ha
        cases ha
      rw [hback, hinline, if_pos rfl]
      exact ⟨_, encode_inline hr hresolved hinline hsole hsomething hfs, halike⟩
    | false =>
      obtain ⟨fs, hfs, halike⟩ := hlays (path'.child case)
      rw [hback, hinline, if_neg Bool.false_ne_true]
      exact ⟨_, encode_explicit hr hresolved hinline hcase hfs, halike⟩

/-- The elements of a legible value are written again. -/
theorem rewrites_of_keyed (ha : (chained r c limit).FillsAlike) (hk : v.Keyed) :
    v.isLegible (c.locates store) = true → ValueRewrites r c store res chain limit v ∧
      EntriesRewrite r c store res chain limit v := by
  have hleaf : ∀ v : Value, v.hasText = true → objectFields? v = none →
      v.isLegible (c.locates store) = true → ValueRewrites r c store res chain limit v ∧
        EntriesRewrite r c store res chain limit v := by
    intro v hv hnone hlegible
    refine ⟨fun s verbatim path t _ ht hverbatim hholds => ?_, fun fields _ _ _ _ hfields => ?_⟩
    · exact rewrites_scalar hv (encode_of_encode_scalar hv ht) hlegible hverbatim hholds
    · cases hnone.symm.trans hfields
  induction hk with
  | null =>
    refine fun _ => ⟨fun s verbatim path t _ ht _ hholds => ?_,
      entriesRewrite h hs hf rfl (.object List.nodup_nil (by simp)) rfl (by simp)⟩
    rw [encode] at ht
    obtain rfl := Except.ok.inj ht
    exact rewrites_null h.keyed ha hholds
  | bool b => exact hleaf _ rfl rfl
  | number n => exact hleaf _ rfl rfl
  | string text => exact hleaf _ rfl rfl
  | reference q => exact hleaf _ rfl rfl
  | list _ ih =>
    refine fun hlegible => ⟨rewrites_list h hlegible fun v hv hv' => (ih v hv hv').1,
      fun _ _ _ _ _ hfields => ?_⟩
    cases hfields
  | @object fields hd hkeyed ih =>
    intro hlegible
    have hk : (Value.object fields).Keyed := .object hd hkeyed
    have hentries : EntriesRewrite r c store res chain limit (.object fields) :=
      entriesRewrite h hs hf rfl hk hlegible fun key v hm =>
        (ih key v hm (Value.isLegible_object_iff.1 hlegible key v hm).2).1
    exact ⟨rewrites_object h ha hk hlegible hentries fun key v hm hv => (ih key v hm hv).2, hentries⟩

end

end TaggedMarkup
