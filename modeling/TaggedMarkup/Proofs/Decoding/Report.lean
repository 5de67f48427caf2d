import TaggedMarkup.Proofs.Decoding.Candidates
import TaggedMarkup.Proofs.Decoding.Composed
import TaggedMarkup.Proofs.Inside
import TaggedMarkup.Proofs.Order.Decoding
import TaggedMarkup.Proofs.Stores.Spelling
/-!
# The report of what did not resolve

Every candidate of a document ends up in its value: as a reference if the store holds its entry, and
else as the text that spells it. The entries of the second group are those that are reported, each
once and in order, so the report and the references share nothing and leave nothing out.
-/
namespace TaggedMarkup

open Markup

namespace Decoder

variable {d : Decoder} {entries : Entries Tree}

namespace Composed

variable {t : Tree} {hint : Option Schema} {fields : Entries Value} {v w : Value} {key : String}

theorem inside (h : Composed d t hint fields v) (hd : fields.Distinct) (hm : (key, w) ∈ fields)
    {u : Value} (hu : u.Inside w) : u.Inside v := by
  cases h with
  | plain => exact .field hm hu
  | untyped case =>
    have hget : (Entries.extend [(Marker.untypedCase, .string case)] fields).get? key = some w := by
      rw [Entries.get?_extend hd, (Entries.get?_eq_some_iff hd).2 hm, Option.some_or]
    exact .field (Entries.mem_of_get?_eq_some hget) hu
  | case _ => exact .field List.mem_cons_self (.field hm hu)

theorem exists_of_reference (h : Composed d t hint fields v) {r : Reference}
    (hr : (Value.reference r).Inside v) :
    ∃ key w, (key, w) ∈ fields ∧ (Value.reference r).Inside w := by
  cases h with
  | plain => exact hr.reference_in_object
  | untyped case =>
    obtain ⟨key, w, hm, hr⟩ := hr.reference_in_object
    rcases Entries.mem_extend hm with hm | hm
    · obtain ⟨-, rfl⟩ := Prod.mk.inj (List.mem_singleton.1 hm)
      exact absurd hr Value.Inside.not_reference_in_string
    · exact ⟨key, w, hm, hr⟩
  | case _ =>
    obtain ⟨key, w, hm, hr⟩ := hr.reference_in_object
    obtain ⟨-, rfl⟩ := Prod.mk.inj (List.mem_singleton.1 hm)
    exact hr.reference_in_object

end Composed

/-! ## References come from the table -/

theorem not_reference_in_natural {r : Reference} (text : String) :
    ¬ (Value.reference r).Inside (natural text) := by
  unfold natural
  split <;> nofun

theorem not_reference_in_bool {r : Reference} (text : String) :
    ¬ (Value.reference r).Inside (bool text) := by
  unfold bool
  cases canonicalBool? text <;> nofun

theorem not_reference_in_literal {r : Reference} (text : String) (hint : Option Schema) :
    ¬ (Value.reference r).Inside (d.literal text hint) := by
  unfold literal
  split
  · nofun
  · unfold number
    cases Number.canonical? text <;> nofun
  · exact not_reference_in_bool text
  · split
    · exact fun h => by simpa using h.reference_in_object
    · exact not_reference_in_natural text
  · split
    · exact fun h => by simpa using h.reference_in_object
    · exact not_reference_in_natural text
  · split
    · exact fun h => by simpa using h.reference_in_list
    · exact not_reference_in_natural text
  · exact not_reference_in_natural text

/-- A reference in a decoded value has been looked up and found. -/
theorem exists_get?_of_reference {t : Tree} (h : t.Keyed) {r : Reference} (hint : Option Schema)
    (hr : (Value.reference r).Inside (d.decode t hint)) : ∃ p, d.resolutions.get? p = some r := by
  revert hint
  refine Tree.Keyed.induction_elements h (fun t hint hr => ?_) (fun items ih hint hr => ?_)
    fun entries distinct ih ihitems hint hr => ?_
  · rw [decode, scalar] at hr
    split at hr
    · next s hs =>
      obtain ⟨p, -, hget⟩ := Option.bind_eq_some_iff.1 hs
      cases hr
      exact ⟨p, hget⟩
    · exact absurd hr (not_reference_in_literal t hint)
  · rw [decode] at hr
    obtain ⟨v, hv, hr⟩ := hr.reference_in_list
    obtain ⟨t, ht, rfl, -⟩ := mem_decodeItems hv
    exact ih t ht _ hr
  · cases hkind : Tree.kind? (.map entries) with
    | none =>
      obtain ⟨skipCase, hcomposed⟩ := exists_composed (d := d) hkind hint
      obtain ⟨key, v, hm, hr⟩ := hcomposed.exists_of_reference hr
      obtain ⟨t, ht, rfl, -⟩ := mem_decodeFields hm
      unfold fieldValue at hr
      split at hr
      · exact absurd hr Value.Inside.not_reference_in_string
      · exact ih key t ht _ hr
    | some kind =>
      cases kind with
      | null =>
        rw [decode, hkind] at hr
        obtain ⟨_, _, hm, -⟩ := hr.reference_in_object
        cases hm
      | array =>
        rw [decode, hkind] at hr
        obtain ⟨v, hv, hr⟩ := hr.reference_in_list
        obtain ⟨t, ht, rfl, -⟩ := mem_decodeItem hv
        exact ihitems t ht _ hr
      | boolean =>
        rw [decode, hkind] at hr
        exact absurd hr (not_reference_in_bool _)
      | string =>
        rw [decode, hkind] at hr
        exact absurd hr Value.Inside.not_reference_in_string

/-! ## Candidates are kept -/

/-- What stands in a value for an entry: the reference to it if it was found, else its text. -/
def standIn (d : Decoder) (p : EntryPath) : Value :=
  match d.resolutions.get? p with
  | some r => .reference r
  | none => .string p.display

theorem standIn_of_some {p : EntryPath} {r : Reference} (h : d.resolutions.get? p = some r) :
    d.standIn p = .reference r := by rw [standIn, h]

theorem standIn_of_none {p : EntryPath} (h : d.resolutions.get? p = none) :
    d.standIn p = .string p.display := by rw [standIn, h]

theorem standIn_isEmptyContainer (p : EntryPath) : (d.standIn p).isEmptyContainer = false := by
  unfold standIn
  split <;> rfl

theorem standIn_ne_empty (p : EntryPath) : d.standIn p ≠ .string "" := by
  cases hget : d.resolutions.get? p with
  | some r =>
    rw [standIn_of_some hget]
    nofun
  | none =>
    rw [standIn_of_none hget]
    intro he
    have hlist := congrArg String.toList (Value.string.inj he)
    rw [EntryPath.display, String.toList_append, String.toList_append] at hlist
    simp at hlist

theorem keeps_of_inside {p : EntryPath} {v : Value} (h : (d.standIn p).Inside v) :
    d.keeps v = true := by
  rw [keeps, h.isEmptyContainer_eq (d.standIn_isEmptyContainer p)]
  simp

/-- A text with the shape of a reference stays as it is under every hint. -/
theorem scalar_eq_standIn (hc : d.convention.SpellsNoScalar) {text : String} {p : EntryPath}
    (hp : d.convention.parse? text = some p) (hint : Option Schema) :
    d.scalar text hint = d.standIn p := by
  have hreference : d.reference? text = d.resolutions.get? p := by rw [reference?, hp]; rfl
  obtain ⟨hnumber, hbool⟩ := hc text p hp
  have hnatural : natural text = .string text := by rw [natural, hnumber, hbool]
  have hne : text.isEmpty = false := by
    simpa using Convention.ne_empty_of_parse? hp
  rw [scalar, standIn, hreference, (Convention.parse?_eq_some hp).1]
  cases d.resolutions.get? p with
  | some r => rfl
  | none =>
    unfold literal
    simp only
    split
    · rfl
    · rw [number, hnumber]; rfl
    · rw [bool, hbool]; rfl
    all_goals simp only [hne, Bool.false_eq_true, if_false, hnatural]

/-- A candidate that stands in an item of a list stands in the list. -/
theorem standIn_inside_list {ts : List Tree} {t : Tree} {p : EntryPath} {hint : Option Schema}
    (ht : t ∈ ts) (h : (d.standIn p).Inside (d.decode t hint)) :
    (d.standIn p).Inside (.list ((ts.map fun t => d.decode t hint).filter d.keeps)) :=
  .item (List.mem_filter.2 ⟨List.mem_map_of_mem ht, keeps_of_inside h⟩) h

/-- A candidate that stands in an entry keeps the field that is decoded from it. -/
theorem mem_decodeFields_of_standIn {entries : Entries Tree} {key : String} {t : Tree} {p : EntryPath}
    {o : Option ObjectType} (ht : (key, t) ∈ entries) (hvariant : key ≠ Marker.variant)
    (h : (d.standIn p).Inside (d.fieldValue o key t)) (skipCase : Bool) :
    (key, d.fieldValue o key t) ∈ d.decodeFields skipCase entries o := by
  rw [decodeFields_eq]
  refine List.mem_filterMap.2 ⟨(key, t), ht, ?_⟩
  rw [fieldValue?, if_neg fun hskip => hvariant hskip.2, if_pos (keeps_of_inside h)]
  rfl

/-- Every candidate in a tree stands in the value, as a reference or as a text. -/
theorem standIn_inside (hc : d.convention.SpellsNoScalar) {t : Tree} (h : t.Keyed) {p : EntryPath}
    (hint : Option Schema) (hp : p ∈ t.candidates d.convention) :
    (d.standIn p).Inside (d.decode t hint) := by
  revert hint
  refine Tree.Keyed.induction_elements h (motive := fun t => p ∈ t.candidates d.convention →
    ∀ hint, (d.standIn p).Inside (d.decode t hint)) (fun t hp hint => ?_)
    (fun items ih hp hint => ?_) (fun entries distinct ih ihitems hp hint => ?_) hp
  · rw [Tree.candidates, Option.mem_toList] at hp
    rw [decode, scalar_eq_standIn hc hp]
    exact .self
  · rw [Tree.candidates] at hp
    obtain ⟨t, ht, hp⟩ := Tree.mem_candidatesOfItems_iff.1 hp
    rw [decode, decodeItems_eq]
    exact standIn_inside_list ht (ih t ht hp _)
  · rw [Tree.candidates] at hp
    cases hkind : Tree.kind? (.map entries) with
    | none =>
      rw [hkind] at hp
      obtain ⟨key, t, ht, hkey, hp⟩ := Tree.mem_candidatesOfEntries_iff.1 hp
      obtain ⟨hvariant, hattribute⟩ := not_or.1 hkey
      obtain ⟨skipCase, hcomposed⟩ := exists_composed (d := d) hkind hint
      let o := d.fieldsType (.map entries) hint
      have hinside : (d.standIn p).Inside (d.fieldValue o key t) := by
        rw [fieldValue, if_neg hattribute]
        exact ih key t ht hp _
      exact hcomposed.inside (distinct_decodeFields distinct _ _)
        (mem_decodeFields_of_standIn ht hvariant hinside skipCase) hinside
    | some kind =>
      rw [hkind] at hp
      cases kind with
      | array =>
        obtain ⟨t, ht, hp⟩ := Tree.mem_candidatesOfItem_iff.1 hp
        rw [decode, hkind]
        simp only [decodeItem_eq]
        exact standIn_inside_list ht (ihitems t ht hp _)
      | _ => cases hp

/-- The content of a root element holds what its element is decoded to. -/
theorem inside_decodeDocument {root : Tree} {schema : Schema} {w : Value}
    (h : w.Inside (d.decode root (some schema))) (hne : w ≠ .string "") :
    w.Inside (d.decodeDocument root schema) := by
  unfold decodeDocument
  split
  · next fields heq => exact heq ▸ h
  · next heq =>
    rw [heq] at h
    cases h
    exact absurd rfl hne
  · exact .field List.mem_cons_self h

theorem reference_in_decodeDocument {root : Tree} {schema : Schema} {r : Reference}
    (h : (Value.reference r).Inside (d.decodeDocument root schema)) :
    (Value.reference r).Inside (d.decode root (some schema)) := by
  unfold decodeDocument at h
  split at h
  · next fields heq => exact heq ▸ h
  · obtain ⟨_, _, hm, -⟩ := h.reference_in_object
    cases hm
  · obtain ⟨_, _, hm, h⟩ := h.reference_in_object
    obtain ⟨-, rfl⟩ := Prod.mk.inj (List.mem_singleton.1 hm)
    exact h

end Decoder

namespace Profile

variable {p : Profile} {store : Store} {kind text : String} {d : Decoded}

/-- The report lists what the store does not hold, each entry once and in order, and the texts of
these entries are in the value. The references in the value are the other candidates, so that each
candidate is either referred to or reported. -/
theorem decode_reports (hc : p.convention.IsLettered) (h : p.decode store kind text = .ok d) :
    d.unresolved.Pairwise EntryPath.Before ∧
    (∀ r, (Value.reference r).Inside d.value → ∃ q, r = p.convention.reference q ∧
      p.convention.resolve? store q = some r ∧ q ∉ d.unresolved) ∧
    (∀ q ∈ d.unresolved, p.convention.resolve? store q = none ∧
      (Value.string q.display).Inside d.value) ∧
    ∃ document root, p.readMarkup text = .ok document ∧ documentRoot document = .ok root ∧
      ∀ q ∈ root.candidates p.convention,
        ((Value.reference (p.convention.reference q)).Inside d.value ↔ q ∉ d.unresolved) := by
  obtain ⟨schema, document, root, -, -, hread, hroot, rfl⟩ := decode_eq_ok_iff.1 h
  have hkeyed : root.Keyed := (keyed_of_read hread).documentRoot hroot
  let resolutions := p.convention.resolveAll store (root.candidates p.convention)
  have hget : ∀ q, resolutions.get? q =
      if q ∈ root.candidates p.convention then p.convention.resolve? store q else none :=
    p.convention.get?_resolveAll store _
  have hunresolved : ∀ q, q ∈ resolutions.unresolved ↔
      q ∈ root.candidates p.convention ∧ p.convention.resolve? store q = none :=
    fun q => Convention.mem_unresolved_resolveAll
  have hinside : ∀ q ∈ root.candidates p.convention, ((p.decoder resolutions).standIn q).Inside
      ((p.decoder resolutions).decodeDocument root schema) := by
    intro q hq
    exact Decoder.inside_decodeDocument (Decoder.standIn_inside hc.spellsNoScalar hkeyed _ hq)
      (Decoder.standIn_ne_empty q)
  have hreference : ∀ r, (Value.reference r).Inside
      ((p.decoder resolutions).decodeDocument root schema) → ∃ q, r = p.convention.reference q ∧
        p.convention.resolve? store q = some r ∧ q ∉ resolutions.unresolved := by
    intro r hr
    obtain ⟨q, hq⟩ := Decoder.exists_get?_of_reference hkeyed _
      (Decoder.reference_in_decodeDocument hr)
    have hq : resolutions.get? q = some r := hq
    rw [hget] at hq
    split at hq
    · refine ⟨q, Convention.eq_reference_of_resolve? hq, hq, fun hmem => ?_⟩
      cases ((hunresolved q).1 hmem).2.symm.trans hq
    · cases hq
  refine ⟨Convention.pairwise_unresolved_resolveAll, hreference, fun q hq => ?_, document, root,
    readMarkup_eq_ok_iff.2 hread, hroot, fun q hq => ⟨fun hr => ?_, fun hnot => ?_⟩⟩
  · obtain ⟨hcandidate, hnone⟩ := (hunresolved q).1 hq
    have hq : (p.decoder resolutions).resolutions.get? q = none :=
      (hget q).trans ((if_pos hcandidate).trans hnone)
    exact ⟨hnone, Decoder.standIn_of_none hq ▸ hinside q hcandidate⟩
  · obtain ⟨q', heq, -, hnot⟩ := hreference _ hr
    exact Convention.reference_injective heq ▸ hnot
  · have hsome : ∃ r, p.convention.resolve? store q = some r :=
      Option.ne_none_iff_exists'.1 fun hnone => hnot ((hunresolved q).2 ⟨hq, hnone⟩)
    obtain ⟨r, hr⟩ := hsome
    have hfound : (p.decoder resolutions).resolutions.get? q = some r :=
      (hget q).trans ((if_pos hq).trans hr)
    rw [← Convention.eq_reference_of_resolve? hr, ← Decoder.standIn_of_some hfound]
    exact hinside q hq

/-- A definition with a label that the store holds and one that it does not. -/
def labelledText : String :=
  "<root><criteria><_T_>filter</_T_><caption>custcollectiontranslations_a.b</caption>" ++
    "<note>custcollectiontranslations_a.c</note></criteria></root>"

theorem decode_reports_label : Convention.standard.IsLettered ∧
    ∃ d, Profile.decode {} Decoder.labels "dataset" labelledText = .ok d ∧
      d.unresolved = [⟨"custcollectiontranslations_a", "c"⟩] ∧
      (Value.string "custcollectiontranslations_a.c").Inside d.value ∧
      (Value.reference (Convention.standard.reference ⟨"custcollectiontranslations_a", "b"⟩)).Inside
        d.value := by
  have hcheck : ((Profile.decode {} Decoder.labels "dataset" labelledText).toOption.any fun d =>
      d.unresolved == [⟨"custcollectiontranslations_a", "c"⟩] &&
        (Profile.readMarkup {} labelledText).toOption.any fun document =>
          (documentRoot document).toOption.any fun root =>
            (root.candidates .standard).contains ⟨"custcollectiontranslations_a", "b"⟩) = true := by
    decide +kernel
  simp only [Option.any_eq_true, Bool.and_eq_true, beq_iff_eq, List.contains_iff_mem] at hcheck
  obtain ⟨d, hd, hunresolved, document, hdocument, root, hroot, hcandidate⟩ := hcheck
  rw [← Encoder.eq_ok_iff_toOption] at hd hdocument hroot
  obtain ⟨-, -, hreported, document', root', hdocument', hroot', hreferred⟩ :=
    decode_reports Convention.standard_isLettered hd
  cases hdocument.symm.trans hdocument'
  cases hroot.symm.trans hroot'
  have hmissing : (Value.string "custcollectiontranslations_a.c").Inside d.value :=
    (hreported ⟨"custcollectiontranslations_a", "c"⟩ (hunresolved ▸ List.mem_cons_self)).2
  refine ⟨Convention.standard_isLettered, d, hd, hunresolved, hmissing,
    (hreferred _ hcandidate).2 ?_⟩
  rw [hunresolved]
  decide

end Profile

end TaggedMarkup
