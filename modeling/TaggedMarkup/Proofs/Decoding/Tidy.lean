import TaggedMarkup.Proofs.Decoding.ReadBack
import TaggedMarkup.Proofs.Encoding.Writable
import TaggedMarkup.Proofs.Markup.Keyed
import TaggedMarkup.Proofs.Wire
/-!
# Values that are decoded

In a decoded value attributes are strings and references are found in the store. Unless it is kept,
nothing is empty but the payload of a case; where it is kept, no field that may keep a case holds an
object of text alone. `Tidy` says so for a value at a place of a schema, and `Tidy.decode` that
decoding makes nothing else. Fields decoded without a type are tidy at every place, since no type
makes decoding take a case out of them.
-/
namespace TaggedMarkup

open Encoder Markup

/-- The decoder that fits an encoder. -/
def Encoder.decoder (e : Encoder) (res : Resolutions) (keepEmpty : Bool) : Decoder :=
  ⟨e.registry, e.convention, res, keepEmpty⟩

/-- The decoder that fits an encoder and keeps nothing empty. -/
abbrev Encoder.reader (e : Encoder) (r : Resolutions) : Decoder := e.decoder r false

namespace Tree

theorem Regular.keyed {t : Tree} (h : t.Regular) : t.Keyed := by
  induction h with
  | text t => exact .text t
  | list _ ih => exact .list ih
  | map distinct _ _ _ _ ih => exact .map distinct ih

/-- Induction that reaches the items of a list element as well as its entries. -/
@[elab_as_elim]
theorem Regular.induction_elements {motive : Tree → Prop} {t : Tree} (h : t.Regular)
    (text : ∀ t, motive (.text t))
    (list : ∀ items : List Tree, (∀ t ∈ items, motive t) → motive (.list items))
    (map : ∀ entries : Entries Tree, entries.Distinct →
      (∀ key t name, (key, t) ∈ entries → Marker.attributeName? key = some name → IsName name) →
      (∀ t, (Marker.text, t) ∈ entries → ∃ v, t = .text v ∧ v ≠ "") →
      (∀ key t, (key, t) ∈ entries → t.Regular) →
      (∀ key t, (key, t) ∈ entries → motive t) →
      (∀ t ∈ (Entries.get? entries Marker.item).elim [] Tree.elements, motive t) →
      motive (.map entries)) : motive t := by
  refine Keyed.induction_elements h.keyed (motive := fun t => t.Regular → motive t)
    (fun t _ => text t) (fun items ih h => ?_) (fun entries _ ih ihitems h => ?_) h
  · cases h with
    | list each => exact list items fun t ht => ih t ht (each t ht)
  · cases h with
    | map distinct names data _ each =>
      refine map entries distinct names data each (fun key t ht => ih key t ht (each key t ht))
        fun t ht => ihitems t ht ?_
      cases hitem : Entries.get? entries Marker.item with
      | none => simp [hitem] at ht
      | some u =>
        rw [hitem] at ht
        exact (each _ u (Entries.mem_of_get?_eq_some hitem)).of_mem_elements ht

/-- What stands in the tags beside character data is read. -/
theorem exists_part_reread {entries : Entries Tree} (h : hasParts entries = true) :
    ∃ key ∈ Entries.keys (rereadEntries entries), key ≠ Marker.text := by
  obtain ⟨⟨key, t⟩, ht, hkey⟩ := List.any_eq_true.1 h
  have hpart : key ≠ Marker.text ∧ key ≠ Marker.verbatim := by
    constructor
    · rintro rfl
      exact absurd hkey (show ¬ (Marker.isAttribute Marker.text || isChild Marker.text) = true by decide)
    · rintro rfl
      exact absurd hkey
        (show ¬ (Marker.isAttribute Marker.verbatim || isChild Marker.verbatim) = true by decide)
  refine ⟨key, Decidable.not_not.1 fun hnone => ?_, hpart.1⟩
  have hget := Entries.get?_eq_none_iff.2 hnone
  rw [get?_rereadEntries, if_neg hpart.1, if_neg hpart.2] at hget
  have hentry : Entries.get? entries key = none := by
    split at hget
    · exact hget
    · exact Option.map_eq_none_iff.1 hget
  exact Entries.get?_eq_none_iff.1 hentry (Entries.mem_keys_of_mem ht)

/-- What is read of a tree that can be written is regular. -/
theorem Writable.regular_reread {t : Tree} (h : t.Writable) : t.reread.Regular := by
  induction h with
  | text t => exact .text _
  | @list items _ _ _ ih =>
    have hreread : (Tree.list items).reread = collect (items.map reread) := by
      rw [reread, trimmed, normal, normalItems_eq, trimmedItems_eq, List.map_map]
      rfl
    have heach : ∀ t ∈ items.map reread, t.Regular := by
      intro t ht
      obtain ⟨u, hu, rfl⟩ := List.mem_map.1 ht
      exact ih u hu
    rw [hreread]
    unfold collect
    split
    · next t ht => exact heach t (by simp [ht])
    · exact .list heach
  | @map entries distinct attributes data names children ih =>
    rw [reread_map]
    split
    · next hparts =>
      refine .map (distinct_rereadEntries distinct) (fun key t name ht ha => ?_) (fun t ht => ?_)
        (exists_part_reread hparts) fun key t ht => ?_
      · have hattribute : Marker.isAttribute key = true := by simp [Marker.isAttribute, ha]
        rcases cases_of_mem_rereadEntries ht with ⟨-, ht⟩ | ⟨hchild, -⟩ | ⟨rfl, -⟩
        · obtain ⟨⟨other, hother, hname⟩, -⟩ := attributes key t ht hattribute
          cases ha.symm.trans hother
          exact hname
        · rw [(isChild_iff.1 hchild).1] at hattribute
          cases hattribute
        · exact absurd hattribute (by decide)
      · rcases cases_of_mem_rereadEntries ht with ⟨hattribute, -⟩ | ⟨hchild, -⟩ | ⟨-, rfl, hne⟩
        · exact absurd hattribute (by decide)
        · exact absurd hchild (by decide)
        · exact ⟨_, rfl, hne⟩
      · rcases cases_of_mem_rereadEntries ht with ⟨ha, ht⟩ | ⟨hchild, u, hu, rfl⟩ | ⟨-, rfl, -⟩
        · obtain ⟨-, v, rfl⟩ := attributes key t ht ha
          exact .text v
        · exact ih key u hu hchild
        · exact .text _
    · exact .text _

end Tree

namespace Decoder

variable {d : Decoder} {store : Store}

/-- What has been looked up and found is in the store. -/
def Sound (d : Decoder) (store : Store) : Prop :=
  ∀ p r, d.resolutions.get? p = some r → d.convention.resolve? store p = some r

theorem sound_resolveAll (r : Registry) (c : Convention) (keepEmpty : Bool) (ps : List EntryPath) :
    Sound ⟨r, c, c.resolveAll store ps, keepEmpty⟩ store := by
  intro p ref hp
  simp only at hp ⊢
  rw [c.get?_resolveAll] at hp
  split at hp
  · exact hp
  · cases hp

theorem Sound.reference? (h : d.Sound store) {text : String} {r : Reference}
    (hr : d.reference? text = some r) : d.convention.spelled? store text = some r := by
  obtain ⟨p, hp, hget⟩ := Option.bind_eq_some_iff.1 hr
  exact Option.bind_eq_some_iff.2 ⟨p, hp, h p r hget⟩

theorem decodeItem_eq (entries : Entries Tree) (hint : Option Schema) :
    d.decodeItem entries hint = (((Entries.get? entries Marker.item).elim [] Tree.elements).map
      fun t => d.decode t hint).filter d.keeps := by
  induction entries with
  | nil => rfl
  | cons entry rest ih =>
    obtain ⟨key, t⟩ := entry
    rw [Entries.get?_cons]
    cases t with
    | list items =>
      rw [decodeItem]
      split
      · rw [decodeItems_eq]
        rfl
      · exact ih
    | text t =>
      rw [decodeItem]
      · split
        · simp only [Option.elim_some, Tree.elements, List.map_cons, List.map_nil, List.filter_cons,
            List.filter_nil]
        · exact ih
      · intro items h
        cases h
    | map inner =>
      rw [decodeItem]
      · split
        · simp only [Option.elim_some, Tree.elements, List.map_cons, List.map_nil, List.filter_cons,
            List.filter_nil]
        · exact ih
      · intro items h
        cases h

/-- Where a decoded field comes from. -/
theorem mem_decodeFields {skipCase : Bool} {entries : Entries Tree} {o : Option ObjectType}
    {key : String} {v : Value} (h : (key, v) ∈ d.decodeFields skipCase entries o) :
    ∃ t, (key, t) ∈ entries ∧ v = d.fieldValue o key t ∧ d.keeps v = true := by
  rw [decodeFields_eq] at h
  obtain ⟨⟨k, t⟩, ht, hv⟩ := List.mem_filterMap.1 h
  obtain ⟨u, hu, he⟩ := Option.map_eq_some_iff.1 hv
  obtain ⟨rfl, rfl⟩ := Prod.mk.inj he
  unfold fieldValue? at hu
  split at hu
  · cases hu
  · split at hu
    · next hkeeps =>
      obtain rfl := Option.some.inj hu
      exact ⟨t, ht, rfl, hkeeps⟩
    · cases hu

theorem mem_decodeFields_of_keeps {entries : Entries Tree} {o : Option ObjectType} {key : String}
    {t : Tree} (h : (key, t) ∈ entries) (hk : d.keeps (d.fieldValue o key t) = true) :
    (key, d.fieldValue o key t) ∈ d.decodeFields false entries o := by
  rw [decodeFields_eq]
  refine List.mem_filterMap.2 ⟨_, h, ?_⟩
  rw [fieldValue?, if_neg (by simp), if_pos hk]
  rfl

theorem distinct_decodeFields {entries : Entries Tree} (hd : entries.Distinct) (skipCase : Bool)
    (o : Option ObjectType) : (d.decodeFields skipCase entries o).Distinct := by
  rw [decodeFields_eq]
  exact Entries.distinct_filterMap hd _

/-! ## Keys and names -/

/-- A value whose objects have distinct keys and names for attributes. -/
def Proper (v : Value) : Prop := v.Keyed ∧ v.isNamed = true

theorem proper_object {fields : Entries Value} (hd : fields.Distinct)
    (h : ∀ key v, (key, v) ∈ fields →
      (∀ name, Marker.attributeName? key = some name → v.hasText = true → IsName name) ∧ Proper v) :
    Proper (.object fields) :=
  ⟨.object hd fun key v hm => (h key v hm).2.1,
    Value.isNamed_object_iff.2 fun key v hm => ⟨(h key v hm).1, (h key v hm).2.2⟩⟩

theorem proper_list {items : List Value} (h : ∀ v ∈ items, Proper v) : Proper (.list items) :=
  ⟨.list fun v hv => (h v hv).1, Value.isNamed_list_iff.2 fun v hv => (h v hv).2⟩

theorem proper_nil : Proper (.object []) := proper_object List.nodup_nil (by simp)

theorem proper_string (t : String) : Proper (.string t) := ⟨.string t, rfl⟩

theorem proper_bool (text : String) : Proper (bool text) := by
  unfold bool
  cases canonicalBool? text with
  | none => exact proper_string text
  | some b => exact ⟨.bool b, rfl⟩

theorem proper_natural (text : String) : Proper (natural text) := by
  unfold natural
  split
  · exact ⟨.number _, rfl⟩
  · exact ⟨.bool _, rfl⟩
  · exact proper_string text

theorem proper_scalar (text : String) (hint : Option Schema) : Proper (d.scalar text hint) := by
  unfold scalar
  split
  · exact ⟨.reference _, rfl⟩
  · unfold literal
    split
    · exact proper_string text
    · unfold number
      cases Number.canonical? text with
      | none => exact proper_string text
      | some n => exact ⟨.number n, rfl⟩
    · exact proper_bool text
    · split
      · exact proper_nil
      · exact proper_natural text
    · split
      · exact proper_nil
      · exact proper_natural text
    · split
      · exact proper_list (by simp)
      · exact proper_natural text
    · exact proper_natural text

section

variable {F : String → Value → Prop} {P : Value → Prop}
  (scalar : ∀ text hint, P (d.scalar text hint)) (string : ∀ text, P (.string text))
  (bool : ∀ text, P (bool text)) (list : ∀ items, (∀ v ∈ items, P v) → P (.list items))
  (object : ∀ fields : Entries Value, fields.Distinct → (∀ key v, (key, v) ∈ fields → F key v) →
    P (.object fields))
  (attr : ∀ key name text, Marker.attributeName? key = some name → IsName name →
    F key (.string text))
  (data : ∀ text hint, text ≠ "" → F Marker.text (d.scalar text hint))
  (child : ∀ key v, Marker.isAttribute key = false → key ≠ Marker.text → P v → F key v)
  (payload : ∀ case fields, P (.object fields) → F case (.object fields))

include string object child in
theorem holds_untyped (case : String) {fields : Entries Value}
    (heach : ∀ key v, (key, v) ∈ fields → F key v) : P (untyped case fields) := by
  have hcase : Entries.Distinct [(Marker.untypedCase, Value.string case)] := List.nodup_singleton _
  refine object _ (Entries.distinct_extend hcase _) fun key v hm => ?_
  rcases Entries.mem_extend hm with hm | hm
  · obtain ⟨rfl, rfl⟩ := Prod.mk.inj (List.mem_singleton.1 hm)
    exact child _ _ (by decide) (by decide) (string case)
  · exact heach key v hm

include object payload in
theorem holds_case (case : String) {fields : Entries Value} (h : P (.object fields)) :
    P (.object [(case, .object fields)]) := by
  refine object _ (List.nodup_singleton _) fun key v hm => ?_
  obtain ⟨rfl, rfl⟩ := Prod.mk.inj (List.mem_singleton.1 hm)
  exact payload _ _ h

include attr data child in
theorem holds_field {entries : Entries Tree}
    (names : ∀ key t name, (key, t) ∈ entries → Marker.attributeName? key = some name → IsName name)
    (texts : ∀ t, (Marker.text, t) ∈ entries → ∃ text, t = .text text ∧ text ≠ "")
    (each : ∀ key t, (key, t) ∈ entries → ∀ hint, P (d.decode t hint)) {skipCase : Bool}
    {o : Option ObjectType} {key : String} {v : Value}
    (h : (key, v) ∈ d.decodeFields skipCase entries o) : F key v := by
  obtain ⟨t, ht, rfl, -⟩ := mem_decodeFields h
  unfold fieldValue
  split
  · next ha =>
    obtain ⟨name, hname⟩ := Option.isSome_iff_exists.1 ha
    exact attr key name _ hname (names key t name ht hname)
  · next ha =>
    by_cases htext : key = Marker.text
    · subst htext
      obtain ⟨text, rfl, hne⟩ := texts t ht
      exact data text _ hne
    · exact child key _ (by simpa using ha) htext (each key t ht _)

include scalar string bool list object attr data child payload in
/-- What holds of scalars and survives the making of lists and objects holds of all that is decoded.
Fields have a property of their own, by which attributes and character data can be told. -/
theorem decode_induction {t : Tree} (h : t.Regular) (hint : Option Schema) : P (d.decode t hint) := by
  have hkept : ∀ (ts : List Tree) hint, (∀ t ∈ ts, P (d.decode t hint)) →
      P (.list ((ts.map fun t => d.decode t hint).filter d.keeps)) := by
    intro ts hint hts
    refine list _ fun v hv => ?_
    obtain ⟨t, ht, rfl⟩ := List.mem_map.1 (List.mem_of_mem_filter hv)
    exact hts t ht
  revert hint
  refine Tree.Regular.induction_elements h (fun t hint => scalar t hint)
    (fun items ih hint => ?_) fun entries distinct names texts _ ih ihitems hint => ?_
  · rw [decode, decodeItems_eq]
    exact hkept items _ fun t ht => ih t ht _
  · have heach : ∀ skipCase o key v, (key, v) ∈ d.decodeFields skipCase entries o → F key v :=
      fun _ _ _ _ => holds_field attr data child names texts ih
    have hfields : ∀ skipCase o, P (.object (d.decodeFields skipCase entries o)) := fun skipCase o =>
      object _ (distinct_decodeFields distinct skipCase o) (heach skipCase o)
    unfold decode
    split
    · exact object [] List.nodup_nil (by simp)
    · rw [decodeItem_eq]
      exact hkept _ _ fun t ht => ihitems t ht _
    · exact bool _
    · exact string _
    · exact hfields _ _
    · next case _ _ =>
      exact asCase_holds (hfields true) (fun o => holds_untyped string object child case (heach true o))
        fun o => holds_case object payload case (hfields true o)

end

/-- Decoding keeps keys apart and takes over names. -/
theorem proper_decode {t : Tree} (h : t.Regular) (hint : Option Schema) :
    Proper (d.decode t hint) := by
  refine decode_induction
    (F := fun key v => (∀ name, Marker.attributeName? key = some name → v.hasText = true →
      IsName name) ∧ Proper v)
    proper_scalar proper_string proper_bool (fun _ => proper_list) (fun _ => proper_object)
    (fun key name text hname hn => ⟨fun other hother _ => ?_, proper_string text⟩)
    (fun text hint _ => ⟨fun name hname => ?_, proper_scalar text hint⟩)
    (fun key v ha _ hv => ⟨fun name hname => ?_, hv⟩)
    (fun case fields hfields => ⟨fun _ _ htext => (nomatch htext), hfields⟩) h hint
  · exact Option.some.inj (hname.symm.trans hother) ▸ hn
  · rw [show Marker.attributeName? Marker.text = none by decide] at hname
    cases hname
  · rw [Marker.isAttribute, hname] at ha
    cases ha

end Decoder

/-! ## Texts of decoded scalars -/

section

variable {e : Encoder} {store : Store} {k : Bool} {res : Resolutions}

theorem Decoder.literal_cases (d : Decoder) (text : String) {hint : Option Schema}
    (h : takesScalar (hint.map d.registry.resolve) = true) :
    d.literal text hint = .string text ∨
      (∃ n, Number.canonical? text = some n ∧ d.literal text hint = .number n) ∨
      ∃ b, canonicalBool? text = some b ∧ d.literal text hint = .bool b := by
  have hnatural : natural text = .string text ∨
      (∃ n, Number.canonical? text = some n ∧ natural text = .number n) ∨
      ∃ b, canonicalBool? text = some b ∧ natural text = .bool b := by
    unfold natural
    split
    · next n hn => exact .inr (.inl ⟨n, hn, rfl⟩)
    · next b _ hb => exact .inr (.inr ⟨b, hb, rfl⟩)
    · exact .inl rfl
  unfold literal
  split
  · exact .inl rfl
  · unfold number
    cases hn : Number.canonical? text with
    | none => exact .inl rfl
    | some n => exact .inr (.inl ⟨n, rfl, rfl⟩)
  · unfold bool
    cases hb : canonicalBool? text with
    | none => exact .inl rfl
    | some b => exact .inr (.inr ⟨b, rfl, rfl⟩)
  · next ho => rw [ho] at h; cases h
  · next hv => rw [hv] at h; cases h
  · next hl => rw [hl] at h; cases h
  · exact hnatural

theorem Decoder.hasText_literal (d : Decoder) (text : String) {hint : Option Schema}
    (h : takesScalar (hint.map d.registry.resolve) = true) :
    (d.literal text hint).hasText = true := by
  rcases d.literal_cases text h with hl | ⟨n, -, hl⟩ | ⟨b, -, hl⟩ <;> rw [hl] <;> rfl

theorem Decoder.hasText_scalar (d : Decoder) (text : String) {hint : Option Schema}
    (h : takesScalar (hint.map d.registry.resolve) = true) :
    (d.scalar text hint).hasText = true := by
  unfold Decoder.scalar
  split
  · rfl
  · exact d.hasText_literal text h

/-- A literal keeps the text that it is read from. -/
theorem Decoder.wireText?_literal (d : Decoder) (text : String) {hint : Option Schema}
    (h : takesScalar (hint.map d.registry.resolve) = true) :
    e.wireText? (d.literal text hint) = some text := by
  rcases d.literal_cases text h with hl | ⟨n, hn, hl⟩ | ⟨b, hb, hl⟩
  · rw [hl]
    rfl
  · rw [hl]
    exact congrArg some (Number.text_of_canonical? hn)
  · rw [hl]
    exact congrArg some (canonicalBool?_eq_some_iff.1 hb).symm

/-- A decoded scalar keeps the text that it was decoded from. -/
theorem wireText?_scalar (hs : (e.decoder res k).Sound store) (text : String) {hint : Option Schema}
    (h : takesScalar (hint.map e.registry.resolve) = true) :
    e.wireText? ((e.decoder res k).scalar text hint) = some text := by
  unfold Decoder.scalar
  split
  · next r hr =>
    have hrender := (Convention.spelled?_eq_some (hs.reference? hr)).1
    exact congrArg some hrender
  · exact (e.decoder res k).wireText?_literal text h

end

theorem declared?_eq_none {o : Option ObjectType} (ho : ∀ t, o = some t → t.WellKeyed) {key : String}
    (hk : ¬ IsFieldName key) : declared? o key = none := by
  cases o with
  | none => rfl
  | some t =>
    cases hf : t.field? key with
    | none => exact hf
    | some f => exact absurd ((ho t rfl).names key f (Entries.mem_of_get?_eq_some hf)) hk

/-- No type declares the character data of an element. -/
theorem Decoder.fieldValue_text {d : Decoder} {o : Option ObjectType}
    (ho : ∀ t, o = some t → t.WellKeyed) (text : String) :
    d.fieldValue o Marker.text (.text text) = d.scalar text none := by
  have hdeclared : declared? o Marker.text = none := declared?_eq_none ho (by decide)
  rw [fieldValue, if_neg (by decide), hdeclared, Option.map_none, decode]

namespace Decoder

variable {d : Decoder} {hint : Option Schema}

/-- An object without a case marker is decoded under the type of its place. -/
theorem objectHint_of_plainType? {o : Option ObjectType}
    (h : plainType? (hint.map d.registry.resolve) = some o) : d.objectHint hint = o := by
  rw [objectHint]
  generalize hint.map d.registry.resolve = resolved at h
  match resolved with
  | none | some (.primitive .unknown) | some (.object _) => exact Option.some.inj h

theorem itemHint_of_itemType? {item : Option Schema}
    (h : itemType? (hint.map d.registry.resolve) = some item) : d.itemHint hint = item := by
  rw [itemHint]
  generalize hint.map d.registry.resolve = resolved at h
  match resolved with
  | none | some (.primitive .unknown) | some (.list _) => exact Option.some.inj h

end Decoder

/-! ## Tidy values -/

/-- An object of text alone. -/
def Value.isText : Value → Bool
  | .object fields => !fields.isEmpty && fields.all fun f => decide (f.1 = Marker.text)
  | _ => false

/-- A field of the object can keep its case. -/
def Encoder.keepsCase (o : Option ObjectType) : Bool :=
  !o.any fun o => o.tag.isSome || (o.field? Marker.untypedCase).isSome

theorem Encoder.declared?_of_keepsCase {o : Option ObjectType} (h : keepsCase o = true) :
    declared? o Marker.untypedCase = none := by
  cases o with
  | none => rfl
  | some u =>
    have hnone : u.tag = none ∧ u.field? Marker.untypedCase = none := by simpa [keepsCase] using h
    exact hnone.2

/-- The field that may keep the case of an object holds no object of text alone. -/
def NoTextCase (o : Option ObjectType) (fields : Entries Value) : Prop :=
  keepsCase o = true → ∀ v, (Marker.untypedCase, v) ∈ fields → v.isText = false

theorem NoTextCase.untyped {o : Option ObjectType} {fields : Entries Value} (h : NoTextCase o fields)
    (case : String) :
    NoTextCase o (Entries.extend [(Marker.untypedCase, .string case)] fields) := by
  intro hkeeps v hm
  rcases Entries.mem_extend hm with hm | hm
  · obtain ⟨-, rfl⟩ := Prod.mk.inj (List.mem_singleton.1 hm)
    rfl
  · exact h hkeeps v hm

theorem Value.isText_of_hasText {v : Value} (h : v.hasText = true) : v.isText = false := by
  cases v with
  | object fields => cases h
  | _ => rfl

theorem Value.isText_of_mem {fields : Entries Value} {key : String} {v : Value}
    (hm : (key, v) ∈ fields) (hk : key ≠ Marker.text) : (Value.object fields).isText = false := by
  rw [isText, Bool.and_eq_false_iff, List.all_eq_false]
  exact .inr ⟨_, hm, by simpa using hk⟩

theorem Value.exists_of_isText {fields : Entries Value} (h : (Value.object fields).isText = false)
    (hne : fields ≠ []) : ∃ f ∈ fields, f.1 ≠ Marker.text := by
  have hall : (fields.all fun f => decide (f.1 = Marker.text)) = false := by
    simpa [isText, hne] using h
  obtain ⟨f, hf, hkey⟩ := List.all_eq_false.1 hall
  exact ⟨f, hf, by simpa using hkey⟩

/-- Where a value stands. -/
inductive Place where
  /-- As a value of a schema, if one is known. -/
  | value (schema : Option Schema)
  /-- As the object of a type, if one is known. -/
  | body (type : Option ObjectType)
  /-- As the payload of a case that it does not name. -/
  | implied (type : Option ObjectType)

/-- References are found in the store. Unless it is kept, nothing is empty but the payload of a case; a
case that no variant declares may stand without a payload where another case is implied. Where it is
kept, no field that may keep a case holds text alone. -/
inductive Tidy (e : Encoder) (store : Store) (k : Bool) : Place → Value → Prop
  | null (s : Option Schema) (keeps : k = true) : Tidy e store k (.value s) .null
  | bool (s : Option Schema) (b : Bool) : Tidy e store k (.value s) (.bool b)
  | number (s : Option Schema) (n : Number) : Tidy e store k (.value s) (.number n)
  | string (s : Option Schema) (t : String) : Tidy e store k (.value s) (.string t)
  | reference (s : Option Schema) {r : Reference}
      (found : e.convention.spelled? store (e.convention.render r) = some r) :
      Tidy e store k (.value s) (.reference r)
  | list {s : Option Schema} {items : List Value}
      (filled : k = false → ∀ v ∈ items, v.isEmptyContainer = false)
      (each : ∀ item, itemType? (s.map e.registry.resolve) = some item →
        ∀ v ∈ items, Tidy e store k (.value item) v) : Tidy e store k (.value s) (.list items)
  | object {s : Option Schema} {fields : Entries Value}
      (case : k = true → ∀ o, plainType? (s.map e.registry.resolve) = some o → NoTextCase o fields)
      (plain : ∀ o, plainType? (s.map e.registry.resolve) = some o →
        Tidy e store k (.body o) (.object fields))
      (explicit : ∀ v case schema payload inner, s.map e.registry.resolve = some (.variant v) →
        explicitCase? v fields = some (case, schema) → fields = [(case, payload)] →
        objectFields? payload = some inner →
        Tidy e store k (.body (e.registry.objectOf? schema)) (.object inner))
      (implied : ∀ v case schema, s.map e.registry.resolve = some (.variant v) →
        explicitCase? v fields = none → v.soleCase? = some (case, schema) →
        Tidy e store k (.implied (e.registry.objectOf? schema)) (.object fields)) :
      Tidy e store k (.value s) (.object fields)
  | body {o : Option ObjectType} {fields : Entries Value} (distinct : fields.Distinct)
      (data : ∀ v, (Marker.text, v) ∈ fields → e.wireText? v ≠ some "")
      (filled : k = false → ∀ key v, (key, v) ∈ fields → v.isEmptyContainer = false)
      (each : ∀ key v, (key, v) ∈ fields → IsFieldName key →
        Tidy e store k (.value ((declared? o key).map Field.schema)) v) :
      Tidy e store k (.body o) (.object fields)
  | whole {o : Option ObjectType} {v : Value} (h : Tidy e store k (.body o) v) :
      Tidy e store k (.implied o) v
  | bare (o : Option ObjectType) (case : String) :
      Tidy e store k (.implied o) (.object [(case, .object [])])

namespace Tidy

variable {e : Encoder} {store : Store} {k : Bool} {res : Resolutions}

/-- No type says how to decode here. -/
def Loose (e : Encoder) (hint : Option Schema) : Prop :=
  ∀ resolved, hint.map e.registry.resolve = some resolved → ∃ kind, resolved = .primitive kind

theorem loose_none : Loose e none := by
  intro resolved h
  cases h

theorem body_nil (o : Option ObjectType) : Tidy e store k (.body o) (.object []) :=
  .body List.nodup_nil (by simp) (by simp) (by simp)

theorem object_nil (s : Option Schema) : Tidy e store k (.value s) (.object []) := by
  refine .object (fun _ _ _ _ _ hm => nomatch hm) (fun o _ => body_nil o)
    (fun v case schema payload inner _ hc => ?_) fun v case schema _ _ _ => .whole (body_nil _)
  obtain ⟨-, -, payload, hfields⟩ := explicitCase?_eq_some_iff.1 hc
  cases hfields

/-- The text of a tidy value is empty for the empty string only. -/
theorem wireText?_ne_empty {s : Option Schema} {v : Value} (h : Tidy e store k (.value s) v)
    (hne : v ≠ .string "") : e.wireText? v ≠ some "" := by
  intro hwire
  cases h with
  | bool _ b => cases b <;> exact absurd (Option.some.inj hwire) (by decide)
  | number _ n => exact n.text_ne_empty (Option.some.inj hwire)
  | string _ text => exact hne (congrArg Value.string (Option.some.inj hwire))
  | reference _ found => exact (Convention.spelled?_eq_some found).2.2 (Option.some.inj hwire)
  | null _ _ | list _ _ | object _ _ _ _ => cases hwire

section

variable {s : Option Schema} {o : Option ObjectType} {fields : Entries Value} {v : VariantType}
  {case : String} {schema : Schema}

theorem of_mem_list {items : List Value} (h : Tidy e store k (.value s) (.list items))
    {item : Option Schema} (hitem : itemType? (s.map e.registry.resolve) = some item) {w : Value}
    (hw : w ∈ items) : Tidy e store k (.value item) w := by
  cases h with
  | list _ each => exact each item hitem w hw

theorem of_mem_body (h : Tidy e store k (.body o) (.object fields)) {key : String} {w : Value}
    (hm : (key, w) ∈ fields) (hk : IsFieldName key) :
    Tidy e store k (.value ((declared? o key).map Field.schema)) w := by
  cases h with
  | body _ _ _ each => exact each key w hm hk

theorem of_plainType? (h : Tidy e store true (.value s) (.object fields))
    (ho : plainType? (s.map e.registry.resolve) = some o) :
    NoTextCase o fields ∧ Tidy e store true (.body o) (.object fields) := by
  cases h with
  | object case plain _ _ => exact ⟨case rfl o ho, plain o ho⟩

theorem of_explicit (h : Tidy e store k (.value s) (.object fields))
    (hs : s.map e.registry.resolve = some (.variant v))
    (hc : explicitCase? v fields = some (case, schema)) {payload : Value}
    (hf : fields = [(case, payload)]) {inner : Entries Value} (hp : objectFields? payload = some inner) :
    Tidy e store k (.body (e.registry.objectOf? schema)) (.object inner) := by
  cases h with
  | object _ _ explicit _ => exact explicit v case schema payload inner hs hc hf hp

/-- Where it is kept, an empty payload is as good as any. -/
theorem of_implied (h : Tidy e store true (.value s) (.object fields))
    (hs : s.map e.registry.resolve = some (.variant v)) (hc : explicitCase? v fields = none)
    (hsole : v.soleCase? = some (case, schema)) :
    Tidy e store true (.body (e.registry.objectOf? schema)) (.object fields) := by
  cases h with
  | object _ _ _ implied =>
    cases implied v case schema hs hc hsole with
    | whole h => exact h
    | bare _ name =>
      have hempty : ∀ key w, (key, w) ∈ [(name, Value.object [])] → w = .object [] := fun key w hm =>
        (Prod.mk.inj (List.mem_singleton.1 hm)).2
      refine .body (List.nodup_singleton _) (fun w hm => ?_) (by simp) fun key w hm _ => ?_
      · rw [hempty _ w hm]
        simp [wireText?, Value.scalarText?]
      · rw [hempty _ w hm]
        exact object_nil _

end

theorem scalar (hs : (e.decoder res k).Sound store) (text : String) (hint s : Option Schema) :
    Tidy e store k (.value s) ((e.decoder res k).scalar text hint) := by
  have hnatural : Tidy e store k (.value s) (Decoder.natural text) := by
    unfold Decoder.natural
    split
    · exact .number s _
    · exact .bool s _
    · exact .string s _
  unfold Decoder.scalar
  split
  · next r hr =>
    have hfound := hs.reference? hr
    have hrender := (Convention.spelled?_eq_some hfound).1
    exact .reference s (by rw [show e.convention.render r = text from hrender]; exact hfound)
  · unfold Decoder.literal
    split
    · exact .string s text
    · unfold Decoder.number
      cases Number.canonical? text with
      | none => exact .string s text
      | some n => exact .number s n
    · unfold Decoder.bool
      cases canonicalBool? text with
      | none => exact .string s text
      | some b => exact .bool s b
    · split
      · exact object_nil s
      · exact hnatural
    · split
      · exact object_nil s
      · exact hnatural
    · split
      · exact .list (by simp) (by simp)
      · exact hnatural
    · exact hnatural

/-- An object whose case no schema declares. -/
theorem untyped {o : Option ObjectType} {fields : Entries Value}
    (h : Tidy e store k (.body o) (.object fields)) (case : String) :
    Tidy e store k (.body o) (Decoder.untyped case fields) := by
  have hcase : Entries.Distinct [(Marker.untypedCase, Value.string case)] := List.nodup_singleton _
  have hmem : ∀ key v, (key, v) ∈ Entries.extend [(Marker.untypedCase, .string case)] fields →
      key = Marker.untypedCase ∧ v = .string case ∨ (key, v) ∈ fields := by
    intro key v hm
    rcases Entries.mem_extend hm with hm | hm
    · exact .inl (Prod.mk.inj (List.mem_singleton.1 hm))
    · exact .inr hm
  cases h with
  | body distinct data filled each =>
    refine .body (Entries.distinct_extend hcase _) (fun v hm => ?_) (fun hk key v hm => ?_)
      fun key v hm hk => ?_
    · rcases hmem _ v hm with ⟨hk, -⟩ | hm
      · exact absurd hk (by decide)
      · exact data v hm
    · rcases hmem key v hm with ⟨-, rfl⟩ | hm
      · rfl
      · exact filled hk key v hm
    · rcases hmem key v hm with ⟨-, rfl⟩ | hm
      · exact .string _ case
      · exact each key v hm hk

variable {entries : Entries Tree}

/-- The fields of an element, given how its entries are decoded. They may be decoded without the
type at whose place they stand. -/
theorem fields (hs : (e.decoder res k).Sound store) (hd : entries.Distinct)
    (hdata : ∀ t, (Marker.text, t) ∈ entries → ∃ v, t = .text v ∧ v ≠ "")
    (ih : ∀ key t, (key, t) ∈ entries → ∀ hint s, s = hint ∨ Loose e hint →
      Tidy e store k (.value s) ((e.decoder res k).decode t hint))
    {o o' : Option ObjectType} (ho : o' = o ∨ o' = none) (hwell : ∀ t, o' = some t → t.WellKeyed)
    (skipCase : Bool) :
    Tidy e store k (.body o) (.object ((e.decoder res k).decodeFields skipCase entries o')) := by
  refine .body (Decoder.distinct_decodeFields hd skipCase o') (fun v hm => ?_) (fun hk key v hm => ?_)
    fun key v hm hk => ?_
  · obtain ⟨t, ht, rfl, -⟩ := Decoder.mem_decodeFields hm
    obtain ⟨text, rfl, hne⟩ := hdata t ht
    rw [Decoder.fieldValue_text hwell, wireText?_scalar hs text rfl]
    exact fun h => hne (Option.some.inj h)
  · obtain ⟨t, -, -, hkeeps⟩ := Decoder.mem_decodeFields hm
    simpa [Decoder.keeps, Encoder.decoder, hk] using hkeeps
  · obtain ⟨t, ht, rfl, -⟩ := Decoder.mem_decodeFields hm
    have hplain : Marker.isAttribute key = false := by
      rw [Marker.isAttribute, (isFieldName_iff.1 hk).1]
      rfl
    rw [Decoder.fieldValue, hplain]
    refine ih key t ht _ _ ?_
    rcases ho with rfl | rfl
    · exact .inl rfl
    · exact .inr loose_none

theorem Loose.ne {hint : Option Schema} (h : Loose e hint) {resolved : Resolved}
    (hkind : ∀ kind, resolved ≠ .primitive kind) : hint.map e.registry.resolve ≠ some resolved := by
  intro hresolved
  obtain ⟨kind, hprimitive⟩ := h resolved hresolved
  exact hkind kind hprimitive

theorem loose_of_itemType? {hint : Option Schema}
    (h : itemType? (hint.map e.registry.resolve) = some none) : Loose e hint := by
  intro resolved hresolved
  rw [hresolved] at h
  match resolved with
  | .primitive kind => exact ⟨kind, rfl⟩
  | .list _ => cases h

theorem itemHint_of_loose {hint : Option Schema} (h : Loose e hint) :
    (e.decoder res k).itemHint hint = none := by
  unfold Decoder.itemHint
  split
  · next item hitem => exact absurd hitem (h.ne (by simp))
  · rfl

theorem objectHint_of_loose {hint : Option Schema} (h : Loose e hint) :
    (e.decoder res k).objectHint hint = none := by
  unfold Decoder.objectHint
  split
  · next o ho => exact absurd ho (h.ne (by simp))
  · next v hv => exact absurd hv (h.ne (by simp))
  · rfl

theorem takesScalar_of_loose {hint : Option Schema} (h : Loose e hint) :
    takesScalar (hint.map e.registry.resolve) = true := by
  cases hresolved : hint.map e.registry.resolve with
  | none => rfl
  | some resolved =>
    obtain ⟨kind, rfl⟩ := h resolved hresolved
    rfl

/-- An element with a case marker keeps the case, as no type takes it. -/
theorem isText_asCase (hd : entries.Distinct) {hint : Option Schema} (h : Loose e hint)
    (case : String) : ((e.decoder res k).asCase hint case fun o =>
      (e.decoder res k).decodeFields true entries o).isText = false := by
  rw [Decoder.asCase_of_untyped (fun o => h.ne (by simp)) fun v => h.ne (by simp)]
  have hget := Entries.get?_extend (Decoder.distinct_decodeFields (d := e.decoder res k) hd true none)
    [(Marker.untypedCase, .string case)] Marker.untypedCase
  cases hfound : Entries.get? ((e.decoder res k).decodeFields true entries none) Marker.untypedCase with
  | none =>
    rw [hfound] at hget
    exact Value.isText_of_mem (Entries.mem_of_get?_eq_some hget) (by decide)
  | some v =>
    rw [hfound] at hget
    exact Value.isText_of_mem (Entries.mem_of_get?_eq_some hget) (by decide)

/-- The items of a list are decoded under the schema of their place, or under none. -/
theorem itemHint_eq {hint s item : Option Schema} (hhint : s = hint ∨ Loose e hint)
    (hitem : itemType? (s.map e.registry.resolve) = some item) :
    (item = (e.decoder res k).itemHint hint ∨ Loose e ((e.decoder res k).itemHint hint)) ∧
      (item = ((e.decoder res k).itemHint hint).or hint ∨
        Loose e (((e.decoder res k).itemHint hint).or hint)) := by
  have hloose : Loose e hint →
      (item = (e.decoder res k).itemHint hint ∨ Loose e ((e.decoder res k).itemHint hint)) ∧
        (item = ((e.decoder res k).itemHint hint).or hint ∨
          Loose e (((e.decoder res k).itemHint hint).or hint)) := by
    intro h
    rw [itemHint_of_loose h, Option.none_or]
    exact ⟨.inr loose_none, .inr h⟩
  rcases hhint with rfl | h
  · cases item with
    | some item =>
      rw [Decoder.itemHint_of_itemType? hitem]
      exact ⟨.inl rfl, .inl rfl⟩
    | none => exact hloose (loose_of_itemType? hitem)
  · exact hloose h

theorem objectHint_of_variant {hint : Option Schema} {v : VariantType}
    (h : hint.map e.registry.resolve = some (.variant v)) :
    (e.decoder res k).objectHint hint =
      if v.isInline then v.soleCase?.bind fun c => e.registry.objectOf? c.2 else none := by
  unfold Decoder.objectHint
  change hint.map (e.decoder res k).registry.resolve = some (.variant v) at h
  rw [h]
  rfl

theorem objectHint_wellKeyed (hr : e.registry.WellKeyed) {hint : Option Schema} {o : ObjectType}
    (h : (e.decoder res k).objectHint hint = some o) : o.WellKeyed := by
  unfold Decoder.objectHint at h
  split at h
  · next p hp =>
    obtain ⟨schema, -, hschema⟩ := Option.map_eq_some_iff.1 hp
    exact Option.some.inj h ▸ hr.of_resolve hschema
  · next v hv =>
    split at h
    · obtain ⟨c, -, hc⟩ := Option.bind_eq_some_iff.1 h
      exact hr.of_objectOf? hc
    · cases h
  · cases h

/-- An object that is tidy at every place is so as the payload of a case. -/
theorem body_of_forall {v : Value} (h : ∀ s, Tidy e store k (.value s) v) {inner : Entries Value}
    (hv : objectFields? v = some inner) (schema : Schema) :
    Tidy e store k (.body (e.registry.objectOf? schema)) (.object inner) := by
  have hplain : ∀ (s : Option Schema) o, plainType? (s.map e.registry.resolve) = some o →
      Tidy e store k (.body o) (.object inner) := by
    intro s o ho
    have hs := h s
    cases v with
    | object fields =>
      obtain rfl := Option.some.inj hv
      cases hs with
      | object _ plain _ _ => exact plain o ho
    | null =>
      obtain rfl := Option.some.inj hv
      exact body_nil o
    | _ => cases hv
  unfold Registry.objectOf?
  split
  · next o ho => exact hplain (some schema) (some o) (by rw [Option.map_some, ho]; rfl)
  · exact hplain none none rfl

/-- Fields decoded without a type are tidy at every place. -/
theorem of_loose {fields : Entries Value} (hcase : k = true → ∀ o, NoTextCase o fields)
    (hbody : ∀ o, Tidy e store k (.body o) (.object fields))
    (hpayload : ∀ case payload inner schema, (case, payload) ∈ fields →
      objectFields? payload = some inner →
      Tidy e store k (.body (e.registry.objectOf? schema)) (.object inner)) (s : Option Schema) :
    Tidy e store k (.value s) (.object fields) :=
  .object (fun hk o _ => hcase hk o) (fun o _ => hbody o)
    (fun _ case schema payload inner _ _ hfields hp =>
      hpayload case payload inner schema (by simp [hfields]) hp)
    fun _ _ _ _ _ _ => .whole (hbody _)

/-- The object of a type is tidy at a place of the type, which is no variant. -/
theorem of_body {s : Option Schema} {o : Option ObjectType} {v : Value}
    (hv : Tidy e store k (.body o) v)
    (hcase : k = true → ∀ fields, v = .object fields → NoTextCase o fields)
    (ho : ∀ p, plainType? (s.map e.registry.resolve) = some p → p = o)
    (hs : ∀ w, s.map e.registry.resolve ≠ some (.variant w)) : Tidy e store k (.value s) v := by
  cases hv with
  | body distinct data filled each =>
    exact .object (fun hk p h => ho p h ▸ hcase hk _ rfl)
      (fun p h => ho p h ▸ .body distinct data filled each) (fun w _ _ _ _ h => absurd h (hs w)) fun w _ _ h => absurd h (hs w)

/-- Where a variant is expected an object is under a case, or stands for the only one. -/
theorem of_variant {s : Option Schema} {v : VariantType} {fields : Entries Value}
    (hs : s.map e.registry.resolve = some (.variant v))
    (explicit : ∀ case schema payload inner, explicitCase? v fields = some (case, schema) →
      fields = [(case, payload)] → objectFields? payload = some inner →
      Tidy e store k (.body (e.registry.objectOf? schema)) (.object inner))
    (implied : ∀ case schema, explicitCase? v fields = none → v.soleCase? = some (case, schema) →
      Tidy e store k (.implied (e.registry.objectOf? schema)) (.object fields)) :
    Tidy e store k (.value s) (.object fields) := by
  have hplain : ∀ o, plainType? (s.map e.registry.resolve) ≠ some o := by simp [hs, plainType?]
  refine .object (fun _ o ho => absurd ho (hplain o)) (fun o ho => absurd ho (hplain o))
    (fun w case schema payload inner hw => ?_) fun w case schema hw => ?_
  · cases hs.symm.trans hw
    exact explicit case schema payload inner
  · cases hs.symm.trans hw
    exact implied case schema

section

variable (hr : e.registry.WellKeyed)
  (hapart : k = true → ∀ {o o' : Option ObjectType}, o' = o ∨ o' = none →
    ∀ skipCase, NoTextCase o ((e.decoder res k).decodeFields skipCase entries o'))
  (hbody : ∀ {o o' : Option ObjectType}, o' = o ∨ o' = none → (∀ t, o' = some t → t.WellKeyed) →
    ∀ skipCase, Tidy e store k (.body o) (.object ((e.decoder res k).decodeFields skipCase entries o')))
  (ih : ∀ key t, (key, t) ∈ entries → ∀ hint s, s = hint ∨ Loose e hint →
    Tidy e store k (.value s) ((e.decoder res k).decode t hint))

include ih in
theorem payload_of_mem {skipCase : Bool} {case : String} {payload : Value} {inner : Entries Value}
    (hm : (case, payload) ∈ (e.decoder res k).decodeFields skipCase entries none)
    (hp : objectFields? payload = some inner) (schema : Schema) :
    Tidy e store k (.body (e.registry.objectOf? schema)) (.object inner) := by
  obtain ⟨t, ht, hvalue, -⟩ := Decoder.mem_decodeFields hm
  rw [Decoder.fieldValue] at hvalue
  split at hvalue
  · subst hvalue
    cases hp
  · subst hvalue
    exact body_of_forall (fun s' => ih case t ht _ s' (.inr loose_none)) hp schema

include hr hapart hbody ih in
/-- An element without a case marker. -/
theorem of_plain {hint s : Option Schema} (hhint : s = hint ∨ Loose e hint) :
    Tidy e store k (.value s)
      (.object ((e.decoder res k).decodeFields false entries ((e.decoder res k).objectHint hint))) := by
  have hnone : ∀ t : ObjectType, none = some t → t.WellKeyed := by simp
  rcases hhint with rfl | h
  · have hwell : ∀ t, (e.decoder res k).objectHint s = some t → t.WellKeyed := fun t =>
      objectHint_wellKeyed hr
    refine .object (fun hk o ho => hapart hk (.inl (Decoder.objectHint_of_plainType? ho)) false)
      (fun o ho => hbody (.inl (Decoder.objectHint_of_plainType? ho)) hwell false)
      (fun v case schema payload inner hv hc hfields hp => ?_) fun v case schema hv hc hsole => ?_
    · have hinline := (explicitCase?_eq_some_iff.1 hc).1
      rw [objectHint_of_variant hv, hinline, if_neg Bool.false_ne_true] at hfields
      exact payload_of_mem ih (by rw [hfields]; exact List.mem_singleton_self _) hp schema
    · refine .whole (hbody ?_ hwell false)
      rw [objectHint_of_variant hv, hsole]
      split
      · exact .inl rfl
      · exact .inr rfl
  · rw [objectHint_of_loose h]
    exact of_loose (fun hk o => hapart hk (.inr rfl) false) (fun o => hbody (.inr rfl) hnone false)
      (fun case payload inner schema hm hp => payload_of_mem ih hm hp schema) s

include hr hapart hbody in
/-- A type with a tag takes the case that is the tag; any other case is kept in a field. -/
theorem of_case_object {hint s : Option Schema} {o : ObjectType}
    (hhint : hint.map e.registry.resolve = some (.object o))
    (hs : s.map e.registry.resolve = some (.object o)) (case : String) :
    Tidy e store k (.value s) ((e.decoder res k).asCase hint case fun o =>
      (e.decoder res k).decodeFields true entries o) := by
  have hwell : ∀ t, some o = some t → t.WellKeyed := by
    obtain ⟨schema, -, hschema⟩ := Option.map_eq_some_iff.1 hs
    exact fun t ht => Option.some.inj ht ▸ hr.of_resolve hschema
  have hfields := hbody (o := some o) (.inl rfl) hwell true
  have hplace : ∀ fields, (k = true → NoTextCase (some o) fields) →
      Tidy e store k (.body (some o)) (.object fields) →
        Tidy e store k (.value s) (.object fields) := by
    intro fields hcase hv
    refine of_body hv (fun hk _ he => Value.object.inj he ▸ hcase hk) (fun p hp => ?_) (by simp [hs])
    rw [hs] at hp
    exact (Option.some.inj hp).symm
  rw [Decoder.asCase_of_object hhint]
  split
  · exact hplace _ (fun hk => hapart hk (.inl rfl) true) hfields
  · exact hplace _ (fun hk => (hapart hk (.inl rfl) true).untyped case) (untyped hfields case)

include hr hbody in
/-- A case that the variant declares is a payload, which stands for the case where it is implied. -/
theorem of_case_declared {hint s : Option Schema} {v : VariantType}
    (hhint : hint.map e.registry.resolve = some (.variant v))
    (hs : s.map e.registry.resolve = some (.variant v)) {case : String} {schema : Schema}
    (hcase : v.case? case = some schema) :
    Tidy e store k (.value s) ((e.decoder res k).asCase hint case fun o =>
      (e.decoder res k).decodeFields true entries o) := by
  have hwell : ∀ t, e.registry.objectOf? schema = some t → t.WellKeyed := fun t => hr.of_objectOf?
  have hpayload := hbody (.inl rfl) hwell true
  rw [Decoder.asCase_of_case? hhint hcase]
  split
  · next hinline =>
    refine of_variant hs (fun c s' payload inner hc _ _ => ?_) fun c s' _ hsole => ?_
    · cases (explicitCase?_eq_none_of_isInline hinline).symm.trans hc
    · obtain ⟨-, rfl⟩ := VariantType.eq_of_soleCase? hsole hcase
      exact .whole hpayload
  · next hinline =>
    refine of_variant hs (fun c s' payload inner hc hf hp => ?_) fun c s' hc _ => ?_
    · obtain ⟨-, hc', -⟩ := explicitCase?_eq_some_iff.1 hc
      obtain ⟨rfl, rfl⟩ := Prod.mk.inj (List.cons.inj hf).1
      cases hcase.symm.trans hc'
      cases hp
      exact hpayload
    · cases hc.symm.trans (explicitCase?_eq_some_iff.2 ⟨by simpa using hinline, hcase, _, rfl⟩)

include hapart hbody ih in
/-- A case that the variant does not declare is a payload without a type. -/
theorem of_case_undeclared {hint s : Option Schema} {v : VariantType}
    (hhint : hint.map e.registry.resolve = some (.variant v))
    (hs : s.map e.registry.resolve = some (.variant v)) {case : String}
    (hcase : v.case? case = none) :
    Tidy e store k (.value s) ((e.decoder res k).asCase hint case fun o =>
      (e.decoder res k).decodeFields true entries o) := by
  have hpayload : ∀ o, Tidy e store k (.body o)
      (.object ((e.decoder res k).decodeFields true entries none)) := fun o =>
    hbody (.inr rfl) (by simp) true
  rw [Decoder.asCase_of_undeclared hhint hcase]
  refine of_variant hs (fun c s' payload inner hc hf _ => ?_) fun c s' _ _ => ?_
  · obtain ⟨-, hc', -⟩ := explicitCase?_eq_some_iff.1 hc
    obtain ⟨rfl, -⟩ := Prod.mk.inj (List.cons.inj hf).1
    cases hcase.symm.trans hc'
  · by_cases hempty : (e.decoder res k).decodeFields true entries none = []
    · simp only [hempty]
      exact .bare _ case
    · refine .whole (.body (List.nodup_singleton _) (fun u hm => ?_) (fun _ key u hm => ?_)
        fun key u hm _ => ?_)
      · obtain ⟨-, rfl⟩ := Prod.mk.inj (List.mem_singleton.1 hm)
        simp [wireText?, Value.scalarText?]
      · obtain ⟨-, rfl⟩ := Prod.mk.inj (List.mem_singleton.1 hm)
        simpa [Value.isEmptyContainer] using hempty
      · obtain ⟨-, rfl⟩ := Prod.mk.inj (List.mem_singleton.1 hm)
        exact of_loose (fun hk _ => hapart hk (.inr rfl) true) hpayload
          (fun c payload inner schema hm hp => payload_of_mem ih hm hp schema) _

include hapart hbody ih in
/-- Without a type the case is kept in a field. -/
theorem of_case_untyped (s : Option Schema) (case : String) :
    Tidy e store k (.value s)
      (Decoder.untyped case ((e.decoder res k).decodeFields true entries none)) := by
  refine of_loose (fun hk _ => (hapart hk (.inr rfl) true).untyped case)
    (fun o => untyped (hbody (.inr rfl) (by simp) true) case) (fun c payload inner schema hm hp => ?_) s
  rcases Entries.mem_extend hm with hm | hm
  · obtain ⟨-, rfl⟩ := Prod.mk.inj (List.mem_singleton.1 hm)
    cases hp
  · exact payload_of_mem ih hm hp schema

include hr hapart hbody ih in
/-- An element with a case marker. -/
theorem of_case {hint s : Option Schema} (hhint : s = hint ∨ Loose e hint) (case : String) :
    Tidy e store k (.value s) ((e.decoder res k).asCase hint case fun o =>
      (e.decoder res k).decodeFields true entries o) := by
  have hplace : ∀ {resolved}, hint.map e.registry.resolve = some resolved →
      (∀ kind, resolved ≠ .primitive kind) → s.map e.registry.resolve = some resolved := by
    intro resolved hresolved hkind
    rcases hhint with rfl | h
    · exact hresolved
    · exact absurd hresolved (h.ne hkind)
  by_cases ho : ∃ o, hint.map e.registry.resolve = some (.object o)
  · obtain ⟨o, ho⟩ := ho
    exact of_case_object hr hapart hbody ho (hplace ho (by simp)) case
  by_cases hv : ∃ v, hint.map e.registry.resolve = some (.variant v)
  · obtain ⟨v, hv⟩ := hv
    cases hcase : v.case? case with
    | some schema => exact of_case_declared hr hbody hv (hplace hv (by simp)) hcase
    | none => exact of_case_undeclared hapart hbody ih hv (hplace hv (by simp)) hcase
  · rw [Decoder.asCase_of_untyped (fun o h => ho ⟨o, h⟩) fun v h => hv ⟨v, h⟩]
    exact of_case_untyped hapart hbody ih s case

end

/-- Where nothing is dropped, an element decoded without a type is no object of text alone. -/
theorem isText_decode (hk : k = true) {t : Tree} (h : t.Regular) {hint : Option Schema}
    (hl : Loose e hint) : ((e.decoder res k).decode t hint).isText = false := by
  cases h with
  | text text =>
    have hs : takesScalar (hint.map e.registry.resolve) = true := takesScalar_of_loose hl
    rw [Decoder.decode]
    exact Value.isText_of_hasText ((e.decoder res k).hasText_scalar text hs)
  | list each =>
    rw [Decoder.decode]
    rfl
  | @map entries distinct names data parts each =>
    unfold Decoder.decode
    split
    · rfl
    · rfl
    · unfold Decoder.bool
      cases canonicalBool? (Decoder.kindText entries) <;> rfl
    · rfl
    · obtain ⟨key, hkey, hne⟩ := parts
      obtain ⟨t, ht⟩ := Entries.exists_of_mem_keys hkey
      refine Value.isText_of_mem (Decoder.mem_decodeFields_of_keeps ht ?_) hne
      rw [Decoder.keeps, Encoder.decoder, hk, Bool.true_or]
    · exact isText_asCase distinct hl _

/-- The field that may keep a case is decoded without a type. -/
theorem noTextCase_decodeFields (hk : k = true) {o o' : Option ObjectType} (ho : o' = o ∨ o' = none)
    (heach : ∀ key t, (key, t) ∈ entries → t.Regular) (skipCase : Bool) :
    NoTextCase o ((e.decoder res k).decodeFields skipCase entries o') := by
  intro hkeeps v hm
  obtain ⟨t, ht, rfl, -⟩ := Decoder.mem_decodeFields hm
  have hdeclared : declared? o' Marker.untypedCase = none := by
    rcases ho with rfl | rfl
    · exact declared?_of_keepsCase hkeeps
    · rfl
  rw [Decoder.fieldValue, if_neg (by decide), hdeclared]
  exact isText_decode hk (heach _ t ht) loose_none

/-- Decoding under a hint gives tidy values at the place of the hint, and without a type at every
place. -/
theorem decode (hr : e.registry.WellKeyed) (hs : (e.decoder res k).Sound store) {t : Tree}
    (h : t.Regular) (hint s : Option Schema) (hhint : s = hint ∨ Loose e hint) :
    Tidy e store k (.value s) ((e.decoder res k).decode t hint) := by
  revert hint s
  refine Tree.Regular.induction_elements h (fun t hint s _ => scalar hs t hint s)
    (fun items ih hint s hhint => ?_) fun entries distinct names data each ih ihitems hint s hhint => ?_
  · rw [Decoder.decode, Decoder.decodeItems_eq]
    refine .list (fun hk v hv => ?_) fun item hitem v hv => ?_
    · simpa [Decoder.keeps, Encoder.decoder, hk] using (List.mem_filter.1 hv).2
    · obtain ⟨t, ht, rfl⟩ := List.mem_map.1 (List.mem_of_mem_filter hv)
      exact ih t ht _ item (itemHint_eq hhint hitem).2
  · have hbody : ∀ {o o' : Option ObjectType}, o' = o ∨ o' = none →
        (∀ t, o' = some t → t.WellKeyed) → ∀ skipCase, Tidy e store k (.body o)
          (.object ((e.decoder res k).decodeFields skipCase entries o')) :=
      fun ho hwell skipCase => fields hs distinct data ih ho hwell skipCase
    have hapart : k = true → ∀ {o o' : Option ObjectType}, o' = o ∨ o' = none → ∀ skipCase,
        NoTextCase o ((e.decoder res k).decodeFields skipCase entries o') :=
      fun hk _ _ ho skipCase => noTextCase_decodeFields hk ho each skipCase
    unfold Decoder.decode
    split
    · exact object_nil s
    · rw [Decoder.decodeItem_eq]
      refine .list (fun hk v hv => ?_) fun item hitem v hv => ?_
      · simpa [Decoder.keeps, Encoder.decoder, hk] using (List.mem_filter.1 hv).2
      · obtain ⟨t, ht, rfl⟩ := List.mem_map.1 (List.mem_of_mem_filter hv)
        exact ihitems t ht _ item (itemHint_eq hhint hitem).1
    · unfold Decoder.bool
      cases canonicalBool? (Decoder.kindText entries) with
      | none => exact .string s _
      | some b => exact .bool s b
    · exact .string s _
    · exact of_plain hr hapart hbody ih hhint
    · exact of_case hr hapart hbody ih hhint _

/-- A decoded definition is tidy where nothing is dropped. -/
theorem decodeDocument (hr : e.registry.WellKeyed) (hs : (e.decoder res true).Sound store) {t : Tree}
    (h : t.Regular) {schema : Schema} {o : ObjectType} (ho : e.registry.resolve schema = .object o) :
    Tidy e store true (.value (some schema)) ((e.decoder res true).decodeDocument t schema) := by
  have hdecode := decode hr hs h (some schema) (some schema) (.inl rfl)
  have hresolve : (some schema).map e.registry.resolve = some (.object o) := congrArg some ho
  unfold Decoder.decodeDocument
  split
  · next hv => rwa [hv] at hdecode
  · exact object_nil _
  · next hempty =>
    have htext : ∀ key v, (key, v) ∈ [(Marker.text, (e.decoder res true).decode t (some schema))] →
        key = Marker.text ∧ v = (e.decoder res true).decode t (some schema) := fun key v hm =>
      Prod.mk.inj (List.mem_singleton.1 hm)
    have hbody : Tidy e store true (.body (some o))
        (.object [(Marker.text, (e.decoder res true).decode t (some schema))]) := by
      refine .body (List.nodup_singleton _) (fun v hm => ?_) (by simp) fun key v hm hk => ?_
      · rw [(htext _ v hm).2]
        exact hdecode.wireText?_ne_empty hempty
      · rw [(htext key v hm).1] at hk
        exact absurd hk (by decide)
    refine of_body hbody (fun _ fields hfields _ v hm => ?_) (fun p hp => ?_) (by simp [hresolve])
    · rw [← Value.object.inj hfields] at hm
      exact absurd (htext _ v hm).1 (by decide)
    · rw [hresolve] at hp
      exact (Option.some.inj hp).symm

end Tidy

end TaggedMarkup
