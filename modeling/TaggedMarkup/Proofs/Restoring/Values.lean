import TaggedMarkup.Proofs.Numeral
import TaggedMarkup.Proofs.Restoring.Faithful
import TaggedMarkup.Proofs.Stability.Rewriting
/-!
# Values read back from their elements

What is read of the element of a value that comes back restores the value, whatever its object types
fill in. The induction is on the value; it goes through the entries of objects, which stand in the
same way in an element of their own, in the payload of a case and under the root.
-/
namespace TaggedMarkup

open Encoder Markup TaggedMarkup.Tree

variable {e : Encoder} {store : Store} {res : Resolutions} {s : Option Schema} {verbatim : Bool}
  {o : Option ObjectType} {path : Path} {skipCase : Bool} {fields : Entries Value}
  {entries : Entries Tree} {t : Tree} {v : Value}

/-- What is read of the element of a value restores it. -/
def ValueReturns (e : Encoder) (store : Store) (v : Value) : Prop :=
  ∀ s verbatim path t res, v.isFaithful e store s = true →
    e.encode v s verbatim path = .ok t →
    (verbatim = true → s.map e.registry.resolve = some (.primitive .string)) →
    (e.reader res).Knows store t.reread →
    Restores e res (.value s) v ((e.reader res).decode t.reread s)

/-- What is read of the entries of a value restores its fields. -/
def EntriesReturn (e : Encoder) (store : Store) (v : Value) : Prop :=
  ∀ fields o path skipCase entries res, objectFields? v = some fields →
    Value.haveFaithful e store fields o = true → Known e o →
    e.Lays o path skipCase fields entries → KnowsEntries e store res entries →
    Restores e res (.body o) (.object (ownFields skipCase fields))
      (.object ((e.reader res).readBack o entries))

/-! ## Scalars -/

theorem natural_boolText (b : Bool) : Decoder.natural (boolText b) = .bool b := by cases b <;> rfl

theorem spelled?_of_isFound {text : String} (ht : v.scalarText? = some text)
    (h : v.isFound e store = true) : e.convention.spelled? store text = none := by
  cases v with
  | bool _ | number _ | string _ =>
    obtain rfl := Option.some.inj ht
    simpa [Value.isFound, Value.scalarText?] using h
  | _ => cases ht

/-- Character data is read as what it is. -/
theorem settle_of_isFaithfulText (h : v.isFaithfulText e store = true) :
    ∃ text, e.wireText? v = some text ∧ text ≠ "" ∧ e.settle store text none = v := by
  simp only [Value.isFaithfulText, Bool.and_eq_true] at h
  obtain ⟨⟨hv, hfound⟩, hstring⟩ := h
  cases v with
  | null | list _ | object _ => cases hv
  | bool b =>
    have hspelled := spelled?_of_isFound rfl hfound
    refine ⟨boolText b, rfl, by cases b <;> decide, ?_⟩
    rw [Encoder.settle, hspelled]
    exact natural_boolText b
  | number n =>
    exact ⟨n.text, rfl, n.text_ne_empty, settle_of_canonical? (spelled?_of_isFound rfl hfound) rfl rfl
      n.canonical?_text⟩
  | string text =>
    obtain ⟨⟨hne, hn⟩, hb⟩ : (text ≠ "" ∧ Number.canonical? text = none) ∧
        canonicalBool? text = none := by
      simpa [Value.asString?] using hstring
    exact ⟨text, rfl, hne, settle_of_words (spelled?_of_isFound rfl hfound) rfl (.inr ⟨hn, hb⟩)⟩
  | reference q =>
    have hq := of_decide_eq_true hfound
    exact ⟨_, rfl, (Convention.spelled?_eq_some hq).2.2, by rw [Encoder.settle, hq]⟩

/-- A string is read as itself wherever a scalar may stand. -/
theorem decode_string (text : String) (hs : takesScalar (s.map e.registry.resolve) = true)
    (hspelled : e.convention.spelled? store text = none)
    (hverbatim : verbatim = true → s.map e.registry.resolve = some (.primitive .string))
    (hknows : (e.reader res).Knows store (stringTree text verbatim).reread) :
    (e.reader res).decode (stringTree text verbatim).reread s = .string text := by
  rw [decode_reread_stringTree text verbatim s hknows]
  split
  · rfl
  · next hplain =>
    refine settle_of_words hspelled hs ?_
    by_cases hv : verbatim = true
    · exact .inl (hverbatim hv)
    · cases hp : Text.isPadded text with
      | true =>
        exact .inr ⟨Number.canonical?_eq_none_of_isPadded hp, canonicalBool?_eq_none_of_isPadded hp⟩
      | false => exact .inr (by simpa [hv, hp] using hplain)

/-- A scalar is read as itself. -/
theorem decode_of_hasText (hv : v.hasText = true) (hf : v.isFaithful e store s = true)
    (h : e.encode v s verbatim path = .ok t)
    (hverbatim : verbatim = true → s.map e.registry.resolve = some (.primitive .string))
    (hknows : (e.reader res).Knows store t.reread) : (e.reader res).decode t.reread s = v := by
  have htree : e.scalarTree verbatim v = some t := by
    refine encode_scalar (fun hnone => ?_) h
    cases v with
    | null | list _ | object _ => cases hv
    | _ => cases hnone
  have hfound := Value.isFound_of_isFaithful hv hf
  have htext : ∀ text, Unpadded text → (e.reader res).Knows store (Tree.text text).reread →
      (e.reader res).decode (Tree.text text).reread s = e.settle store text s := by
    intro text hu hknows
    rw [Tree.reread_text hu] at hknows
    rw [Decoder.decode_reread_text s hu, scalar_eq_settle hknows]
  cases v with
  | null | list _ | object _ => cases hv
  | bool b =>
    obtain rfl := Option.some.inj htree
    exact Decoder.decode_reread_boolean s b
  | number n =>
    have hs := takesScalar_of_encode rfl rfl h
    obtain rfl := Option.some.inj htree
    rw [Value.isFaithful, Bool.and_eq_true, Bool.not_eq_true'] at hf
    rw [htext _ n.unpadded_text hknows]
    exact settle_of_canonical? (spelled?_of_isFound rfl hfound) hs hf.2 n.canonical?_text
  | string text =>
    have hs := takesScalar_of_encode rfl rfl h
    obtain rfl := Option.some.inj htree
    exact decode_string text hs (spelled?_of_isFound rfl hfound) hverbatim hknows
  | reference q =>
    obtain rfl := Option.some.inj htree
    have hq : e.convention.spelled? store (e.convention.render q) = some q :=
      of_decide_eq_true hfound
    rw [htext _ (Convention.spelled?_eq_some hq).2.1 hknows, Encoder.settle, hq]

/-! ## Fields -/

/-- The element of something that comes back is no placeholder. -/
theorem ValueReturns.isPlaceholder (h : ValueReturns e store v) (hf : v.isFaithful e store s = true)
    (ht : e.encode v s verbatim path = .ok t)
    (hverbatim : verbatim = true → s.map e.registry.resolve = some (.primitive .string)) :
    t.isPlaceholder = false := by
  by_contra hplaceholder
  rw [Bool.not_eq_false] at hplaceholder
  have hempty : ∀ t : Tree, t = .null ∨ t = .array [] → (e.reader ⟨[]⟩).Knows store t.reread ∧
      ((e.reader ⟨[]⟩).decode t.reread s).isEmptyContainer = true := by
    rintro t (rfl | rfl)
    · rw [Decoder.decode_reread_null]
      exact ⟨fun p hp => (nomatch hp), rfl⟩
    · rw [Decoder.decode_reread_array (by simp)]
      exact ⟨fun p hp => (nomatch hp), rfl⟩
  obtain ⟨hknows, hnothing⟩ := hempty t (eq_of_isPlaceholder hplaceholder)
  have hsomething := (h s verbatim path t ⟨[]⟩ hf ht hverbatim hknows).isEmptyContainer
    (Value.isEmptyContainer_of_isFaithful hf)
  rw [hnothing] at hsomething
  cases hsomething

section

variable (hr : e.registry.WellKeyed) (hs : e.registry.VerbatimStrings) (hknown : Known e o)

include hs hknown in
theorem resolve_of_verbatim {key : String} (h : (declared? o key).any Field.verbatim = true) :
    ((declared? o key).map Field.schema).map e.registry.resolve = some (.primitive .string) := by
  obtain ⟨f, hf, hquoted⟩ := (Option.any_eq_true _ _).1 h
  obtain ⟨u, rfl, hu⟩ := Option.bind_eq_some_iff.1 hf
  rw [hf, Option.map_some, Option.map_some,
    hs u _ f (hknown u rfl) (Entries.mem_of_get?_eq_some hu) hquoted]

variable (hd : fields.Distinct) (hfaithful : Value.haveFaithful e store fields o = true)
  (heach : ∀ key v, (key, v) ∈ fields → ValueReturns e store v)
  (hl : e.Lays o path skipCase fields entries)

include hr hs hknown hd hfaithful heach hl

/-- A field that is there is read back. -/
theorem exists_restored (hknows : KnowsEntries e store res entries) {key : String}
    (hv : (key, v) ∈ ownFields skipCase fields) :
    ∃ w, Entries.get? ((e.reader res).readBack o entries) key = some w ∧
      Restores e res (.value ((declared? o key).map Field.schema)) v w := by
  have ho : ∀ u, o = some u → u.WellKeyed := fun u hu => hr.objects u (hknown u hu)
  have hdistinct := hl.distinct ho hd
  have hmem : (key, v) ∈ fields := List.mem_of_mem_filter hv
  have hfield := Value.haveFaithful_iff.1 hfaithful key v hmem
  obtain ⟨a, ha, hrel⟩ := hl.exists_entry hv
  cases hrel with
  | attr hname htext _ =>
    have hattribute : Marker.isAttribute key = true := by simp [Marker.isAttribute, hname]
    rw [if_pos hattribute] at hfield
    obtain ⟨text, hstring⟩ := Option.isSome_iff_exists.1 hfield
    cases v with
    | string text =>
      obtain rfl := Option.some.inj htext
      exact ⟨_, get?_readBack_attribute hdistinct hattribute ha, .scalar _ rfl⟩
    | _ => cases hstring
  | text htext =>
    rw [if_neg (by decide), if_pos rfl] at hfield
    obtain ⟨text, htext', hne, hsettle⟩ := settle_of_isFaithfulText hfield
    cases htext.symm.trans htext'
    have hread := readText_of_lays ho hd hl hv htext
    have hdata := hknows.text (by rwa [hread])
    rw [hread] at hdata
    refine ⟨v, ?_, .scalar _ (hasText_of_wireText? htext)⟩
    rw [get?_readBack_text hdistinct ho, hread, if_neg hne, scalar_eq_settle hdata, hsettle]
  | child hname hencode =>
    have hattribute : Marker.isAttribute key = false := (isChild_iff.1 (isChild_of_isFieldName hname)).1
    rw [if_neg (by simp [hattribute]), if_neg (isFieldName_iff.1 hname).2.1] at hfield
    have hrestores := heach key v hmem _ _ _ _ res hfield hencode (resolve_of_verbatim hs hknown)
      (hknows.child hdistinct hname ha)
    refine ⟨_, ?_, hrestores⟩
    rw [get?_readBack_child hdistinct hname ha, if_neg]
    rw [hrestores.isEmptyContainer (Value.isEmptyContainer_of_isFaithful hfield)]
    exact Bool.false_ne_true

/-- The fields that are there are read back, and those that were filled in. -/
theorem restores_readBack (hknows : KnowsEntries e store res entries) :
    Restores e res (.body o) (.object (ownFields skipCase fields))
      (.object ((e.reader res).readBack o entries)) := by
  have ho : ∀ u, o = some u → u.WellKeyed := fun u hu => hr.objects u (hknown u hu)
  have hrestored : ∀ key v, (key, v) ∈ ownFields skipCase fields → ∃ w,
      Entries.get? ((e.reader res).readBack o entries) key = some w ∧
        Restores e res (.value ((declared? o key).map Field.schema)) v w := fun key v =>
    exists_restored hr hs hknown hd hfaithful heach hl hknows
  have hback := Decoder.distinct_readBack (d := e.reader res) (o := o) (hl.distinct ho hd)
  refine .body hback (fun key hkey => ?_) (fun key v w hv hw => ?_) fun key w hw hnew => ?_
  · obtain ⟨v, hv⟩ := Entries.exists_of_mem_keys hkey
    obtain ⟨w, hw, -⟩ := hrestored key v hv
    exact Entries.mem_keys_of_mem (Entries.mem_of_get?_eq_some hw)
  · obtain ⟨w', hw', h⟩ := hrestored key v hv
    cases hw'.symm.trans ((Entries.get?_eq_some_iff hback).2 hw)
    exact h
  · cases readsBack_of_mem ho hd hl hw with
    | attr _ hv _ _ => exact absurd (Entries.mem_keys_of_mem hv) hnew
    | text hv _ _ => exact absurd (Entries.mem_keys_of_mem hv) hnew
    | @child _ t hname ht _ =>
      rcases hl.cases_mem ht with ⟨f, hf, hrel⟩ | ⟨⟨name, f⟩, hf, hkey, hfill⟩
      · rcases hrel.key with hkey | ⟨-, hkey⟩
        · have hkey : key = f.1 := hkey
          exact absurd (hkey ▸ Entries.mem_keys_of_mem hf) hnew
        · have hkey : key = Marker.verbatim := hkey
          exact absurd (hkey ▸ hname) (by decide)
      · obtain rfl : key = name := hkey
        have hdeclared : declared? o key = some f := declared?_of_mem_missingFields ho hf
        obtain ⟨-, -, hoptional⟩ := mem_missingFields.1 hf
        refine ⟨f, _, t, hdeclared, hoptional, hfill, ?_⟩
        rw [hdeclared, Option.map_some]

omit hr hd in
/-- Entries of fields that come back are not all placeholders. -/
theorem exists_isPlaceholder_false (hskip : skipCase = false) (hne : fields ≠ []) :
    ∃ a ∈ entries, a.2.isPlaceholder = false := by
  subst hskip
  obtain ⟨⟨key, v⟩, hv⟩ := List.exists_mem_of_ne_nil fields hne
  have hfield := Value.haveFaithful_iff.1 hfaithful key v hv
  obtain ⟨a, ha, hrel⟩ := hl.exists_entry (by rwa [ownFields_false])
  refine ⟨a, ha, ?_⟩
  cases hrel with
  | attr _ _ _ => rfl
  | text _ => rfl
  | child hname hencode =>
    have hattribute : Marker.isAttribute key = false := (isChild_iff.1 (isChild_of_isFieldName hname)).1
    rw [if_neg (by simp [hattribute]), if_neg (isFieldName_iff.1 hname).2.1] at hfield
    exact (heach key v hv).isPlaceholder hfield hencode (resolve_of_verbatim hs hknown)

end

end TaggedMarkup
