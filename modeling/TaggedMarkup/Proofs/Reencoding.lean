import TaggedMarkup.Proofs.Cycle.Steady
import TaggedMarkup.Proofs.Encoding.Forms
/-!
# Encoding what has been decoded

What is decoded of the tree of a value can be encoded at the same place, under any settings: objects
keep their type, scalars stay scalars, and what is dropped is filled in. Only a reference can fail
to: it may be written where a type with parts is expected, and if it does not resolve it is decoded
as a scalar. A value without such references is grounded.
-/
namespace TaggedMarkup

open Encoder Markup TaggedMarkup.Tree

namespace Value

section

variable (r : Registry) (found : Reference → Bool)

mutual

/-- References that stand where a type with parts is expected are among those found. -/
def isGrounded : Value → Option Schema → Bool
  | .reference q, s => takesScalar (s.map r.resolve) || found q
  | .list items, s =>
    match itemType? (s.map r.resolve) with
    | some item => areGrounded items item
    | none => true
  | .object fields, s =>
    match plainType? (s.map r.resolve), s.map r.resolve with
    | some o, _ => haveGrounded fields o
    | none, some (.variant v) =>
      match explicitCase? v fields with
      | some (_, schema) => isPayloadGrounded fields (r.objectOf? schema)
      | none => haveGrounded fields (v.soleCase?.bind fun c => r.objectOf? c.2)
    | none, _ => true
  | _, _ => true

def areGrounded : List Value → Option Schema → Bool
  | [], _ => true
  | v :: rest, item => isGrounded v item && areGrounded rest item

def haveGrounded : List (String × Value) → Option ObjectType → Bool
  | [], _ => true
  | (key, v) :: rest, o =>
    isGrounded v ((declared? o key).map Field.schema) && haveGrounded rest o

/-- The statement for the payload of an explicit case, which is the only field. -/
def isPayloadGrounded : List (String × Value) → Option ObjectType → Bool
  | (_, .object payload) :: _, o => haveGrounded payload o
  | _, _ => true

end

variable {r found}

theorem areGrounded_iff {items : List Value} {item : Option Schema} :
    areGrounded r found items item = true ↔ ∀ v ∈ items, isGrounded r found v item = true := by
  induction items with
  | nil => simp [areGrounded]
  | cons v rest ih => simp [areGrounded, ih]

theorem haveGrounded_iff {fields : Entries Value} {o : Option ObjectType} :
    haveGrounded r found fields o = true ↔ ∀ key v, (key, v) ∈ fields →
      isGrounded r found v ((declared? o key).map Field.schema) = true := by
  induction fields with
  | nil => simp [haveGrounded]
  | cons f rest ih =>
    obtain ⟨key, v⟩ := f
    rw [haveGrounded, Bool.and_eq_true, ih]
    constructor
    · rintro ⟨hv, hrest⟩ k w hm
      rcases List.mem_cons.1 hm with he | hm
      · obtain ⟨rfl, rfl⟩ := Prod.mk.inj he
        exact hv
      · exact hrest k w hm
    · intro h
      exact ⟨h key v List.mem_cons_self, fun k w hm => h k w (List.mem_cons_of_mem _ hm)⟩

mutual

/-- More references are found. -/
theorem isGrounded_mono {found' : Reference → Bool} (h : ∀ q, found q = true → found' q = true)
    (v : Value) (s : Option Schema) :
    isGrounded r found v s = true → isGrounded r found' v s = true := by
  match v with
  | .reference q =>
    rw [isGrounded, isGrounded, Bool.or_eq_true, Bool.or_eq_true]
    exact Or.imp id (h q)
  | .list items =>
    rw [isGrounded, isGrounded]
    cases itemType? (s.map r.resolve) with
    | none => exact id
    | some item => exact areGrounded_mono h items item
  | .object fields =>
    rw [isGrounded, isGrounded]
    split
    · exact haveGrounded_mono h fields _
    · split
      · exact isPayloadGrounded_mono h fields _
      · exact haveGrounded_mono h fields _
    · exact id
  | .null | .bool _ | .number _ | .string _ => exact fun _ => by rw [isGrounded] <;> simp

theorem areGrounded_mono {found' : Reference → Bool} (h : ∀ q, found q = true → found' q = true)
    (items : List Value) (item : Option Schema) :
    areGrounded r found items item = true → areGrounded r found' items item = true := by
  match items with
  | [] => exact id
  | v :: rest =>
    rw [areGrounded, areGrounded, Bool.and_eq_true, Bool.and_eq_true]
    exact And.imp (isGrounded_mono h v item) (areGrounded_mono h rest item)

theorem haveGrounded_mono {found' : Reference → Bool} (h : ∀ q, found q = true → found' q = true)
    (fields : List (String × Value)) (o : Option ObjectType) :
    haveGrounded r found fields o = true → haveGrounded r found' fields o = true := by
  match fields with
  | [] => exact id
  | (key, v) :: rest =>
    rw [haveGrounded, haveGrounded, Bool.and_eq_true, Bool.and_eq_true]
    exact And.imp (isGrounded_mono h v _) (haveGrounded_mono h rest o)

theorem isPayloadGrounded_mono {found' : Reference → Bool}
    (h : ∀ q, found q = true → found' q = true) (fields : List (String × Value))
    (o : Option ObjectType) :
    isPayloadGrounded r found fields o = true → isPayloadGrounded r found' fields o = true := by
  match fields with
  | (_, .object payload) :: _ =>
    rw [isPayloadGrounded, isPayloadGrounded]
    exact haveGrounded_mono h payload o
  | [] | (_, .null) :: _ | (_, .bool _) :: _ | (_, .number _) :: _ | (_, .string _) :: _
  | (_, .list _) :: _ | (_, .reference _) :: _ =>
    intro _
    rw [isPayloadGrounded]
    all_goals simp

end

end

end Value

namespace Decoder

variable {d : Decoder} {o : Option ObjectType} {entries : Entries Tree} {key : String} {w : Value}

/-- Where a field that is read back comes from. -/
theorem mem_readBack (h : (key, w) ∈ d.readBack o entries) :
    (Marker.isAttribute key = true ∧ ∃ t, (key, t) ∈ entries ∧ w = .string (t.asText?.getD "")) ∨
      (isChild key = true ∧ key ≠ Marker.variant ∧ ∃ t, (key, t) ∈ entries ∧
        w = d.decode t.reread ((declared? o key).map Field.schema)) ∨
      (key = Marker.text ∧
        w = d.scalar (readText entries) ((declared? o Marker.text).map Field.schema)) := by
  rw [readBack, decodeFields_eq] at h
  obtain ⟨⟨k, t⟩, ht, hfield⟩ := List.mem_filterMap.1 h
  obtain ⟨v, hv, heq⟩ := Option.map_eq_some_iff.1 hfield
  obtain ⟨rfl, rfl⟩ := Prod.mk.inj heq
  have hvalue : k ≠ Marker.variant ∧ v = d.fieldValue o k t := by
    unfold fieldValue? at hv
    split at hv
    · cases hv
    · next hskip =>
      split at hv
      · exact ⟨fun hk => hskip ⟨rfl, hk⟩, (Option.some.inj hv).symm⟩
      · cases hv
  obtain ⟨hvariant, rfl⟩ := hvalue
  rw [rereadEntries, List.mem_append, List.mem_append] at ht
  rcases ht with (ht | ht) | ht
  · obtain ⟨hm, ha⟩ := List.mem_filter.1 ht
    exact .inl ⟨ha, t, hm, by rw [fieldValue, if_pos ha]⟩
  · obtain ⟨⟨k', u⟩, hu, heq⟩ := List.mem_map.1 ht
    obtain ⟨rfl, rfl⟩ := Prod.mk.inj heq
    obtain ⟨hm, hc⟩ := List.mem_filter.1 hu
    have ha : Marker.isAttribute k' = false := (isChild_iff.1 hc).1
    exact .inr (.inl ⟨hc, hvariant, u, hm, by rw [fieldValue, ha, if_neg Bool.false_ne_true]⟩)
  · split at ht
    · cases ht
    · obtain ⟨rfl, rfl⟩ := Prod.mk.inj (List.mem_singleton.1 ht)
      have ha : Marker.isAttribute Marker.text = false := by decide
      exact .inr (.inr ⟨rfl, by rw [fieldValue, ha, if_neg Bool.false_ne_true, decode]⟩)

end Decoder

/-! ## Values that can be encoded -/

/-- A value can be encoded at every path. -/
def Encodable (e : Encoder) (s : Option Schema) (v : Value) : Prop :=
  ∀ verbatim path, ∃ t, e.encode v s verbatim path = .ok t

/-- A field can be an entry of an object, at every path. -/
def EntryEncodable (e : Encoder) (o : Option ObjectType) (f : String × Value) : Prop :=
  ∀ path, ∃ a, EncodesEntry e o path f a

/-- Every type can be filled in, leaves no element without parts, and has markers that reading
keeps. -/
structure Refillable (e : Encoder) : Prop where
  keyed : e.registry.WellKeyed
  tag : ∀ o tag, .object o ∈ e.registry.types → o.tag = some tag → Unpadded tag
  case : ∀ v case schema, .variant v ∈ e.registry.types → v.case? case = some schema → Unpadded case
  parted : ∀ o, .object o ∈ e.registry.types → o.tag = none → ∃ f ∈ o.fields, f.2.optional = false
  fill : ∀ o, .object o ∈ e.registry.types → ∀ f ∈ o.fields, f.2.optional = false →
    ∀ path, ∃ t, e.fill f.2 path = .ok t

theorem Steady.refillable {e : Encoder} {store : Store} (h : Steady e store) : Refillable e where
  keyed := h.keyed
  tag := h.tag
  case := h.case
  parted := h.parted
  fill := by
    intro o ho f hf hoptional path
    obtain ⟨t, ht, -⟩ := h.ready o ho f hf hoptional
    exact ⟨t, ht path⟩

variable {e : Encoder} {store : Store} {res : Resolutions} {keep : Bool} {s : Option Schema}
  {verbatim : Bool} {o : Option ObjectType} {path : Path} {skipCase : Bool}
  {fields : Entries Value} {entries : Entries Tree} {t : Tree} {v : Value}

namespace Refillable

variable (h : Refillable e)

include h

theorem wellKeyed (hk : Known e o) : ∀ t, o = some t → t.WellKeyed := fun t ht =>
  h.keyed.objects t (hk t ht)

theorem exists_lays (hk : Known e o) (path : Path)
    (heach : ∀ f ∈ fields, ∃ a, EncodesEntry e o path f a) (skipCase : Bool) :
    ∃ entries, e.Lays o path skipCase fields entries := by
  obtain ⟨own, hown⟩ := exists_forall₂ fun f (hf : f ∈ ownFields skipCase fields) =>
    heach f (List.mem_of_mem_filter hf)
  have hmissing : ∀ f ∈ missingFields o fields.keys, ∃ a : String × Tree, Fills e path f a := by
    intro f hf
    obtain ⟨⟨u, rfl, hm⟩, -, hoptional⟩ := mem_missingFields.1 hf
    obtain ⟨t, ht⟩ := h.fill u (hk u rfl) f hm hoptional (path.child f.1)
    exact ⟨(f.1, t), rfl, ht⟩
  obtain ⟨filled, hfilled⟩ := exists_forall₂ hmissing
  exact ⟨own ++ filled, own, filled, hown, hfilled, rfl⟩

/-- An object where its type is expected. -/
theorem encodable_plain (ht : plainType? (s.map e.registry.resolve) = some o)
    (heach : ∀ f ∈ fields, EntryEncodable e o f) : Encodable e s (.object fields) := by
  intro verbatim path
  have hk : Known e o := fun _ => mem_types_of_plainType? ht
  obtain ⟨entries, hl⟩ := h.exists_lays hk path (fun f hf => heach f hf path)
    (untypedCase? fields o).isSome
  exact ⟨_, (encode_object_eq_ok_iff h.keyed).2 (.plain ht hl)⟩

theorem exists_encodeRoot {schema : Schema} {u : ObjectType}
    (ho : e.registry.resolve schema = .object u)
    (heach : ∀ f ∈ fields, ∃ a, EncodesEntry e (some u) .root f a) :
    ∃ t, e.encodeRoot (.object fields) schema = .ok t := by
  have hk : Known e (some u) := fun _ hu =>
    Option.some.inj hu ▸ Registry.mem_types_of_resolve ho
  obtain ⟨entries, hl⟩ := h.exists_lays hk .root heach (untypedCase? fields (some u)).isSome
  exact ⟨_, (encodeRoot_object_eq_ok_iff h.keyed ho).2 ⟨entries, hl, rfl⟩⟩

/-- A field of an encoded definition has an entry. -/
theorem exists_entry_of_encodeRoot {schema : Schema} {u : ObjectType}
    (ho : e.registry.resolve schema = .object u)
    (ht : e.encodeRoot (.object fields) schema = .ok t) {f : String × Value} (hf : f ∈ fields)
    (hne : f.1 ≠ Marker.untypedCase) : ∃ a, EncodesEntry e (some u) .root f a := by
  obtain ⟨entries, hl, -⟩ := (encodeRoot_object_eq_ok_iff h.keyed ho).1 ht
  obtain ⟨a, -, ha⟩ := hl.exists_entry (List.mem_filter.2 ⟨hf, by simp [hne]⟩)
  exact ⟨a, ha⟩

/-- An object without fields fits anywhere. -/
theorem encodable_empty (s : Option Schema) : Encodable e s (.object []) := by
  cases ht : plainType? (s.map e.registry.resolve) with
  | some o => exact h.encodable_plain ht (by simp)
  | none =>
    intro verbatim path
    exact ⟨_, (encode_object_eq_ok_iff h.keyed).2 (.blank ht rfl)⟩

variable {t : VariantType} {case : String} {schema : Schema}

theorem unpadded_case (hs : s.map e.registry.resolve = some (.variant t))
    (hc : t.case? case = some schema) : Unpadded case := by
  obtain ⟨q, -, hq⟩ := Option.map_eq_some_iff.1 hs
  exact h.case t case schema (Registry.mem_types_of_resolve_variant hq) hc

/-- An object that names a case. -/
theorem encodable_explicit (hs : s.map e.registry.resolve = some (.variant t))
    (hinline : t.isInline = false) (hc : t.case? case = some schema)
    (heach : ∀ f ∈ fields, EntryEncodable e (e.registry.objectOf? schema) f) :
    Encodable e s (.object [(case, .object fields)]) := by
  intro verbatim path
  have hk : Known e (e.registry.objectOf? schema) := fun _ => Registry.mem_types_of_objectOf?
  obtain ⟨entries, hl⟩ := h.exists_lays hk (path.child case) (fun f hf => heach f hf _) false
  exact ⟨finishCase case entries, encode_explicit h.keyed hs hinline hc hl⟩

/-- An object that stands for the only case. -/
theorem encodable_inline (hs : s.map e.registry.resolve = some (.variant t))
    (hinline : t.isInline = true) (hsole : t.soleCase? = some (case, schema))
    (heach : ∀ f ∈ fields, EntryEncodable e (e.registry.objectOf? schema) f) :
    Encodable e s (.object fields) := by
  by_cases hne : fields = []
  · rw [hne]
    exact h.encodable_empty s
  · intro verbatim path
    have hk : Known e (e.registry.objectOf? schema) := fun _ => Registry.mem_types_of_objectOf?
    obtain ⟨entries, hl⟩ := h.exists_lays hk path (fun f hf => heach f hf path) false
    exact ⟨finishCase case entries, encode_inline h.keyed hs hinline hsole hne hl⟩

end Refillable

theorem exists_scalarTree (hv : v.hasText = true) (verbatim : Bool) :
    ∃ t, e.scalarTree verbatim v = some t := by
  cases v with
  | null | list _ | object _ => cases hv
  | _ => exact ⟨_, rfl⟩

theorem exists_wireText? (hv : v.hasText = true) : ∃ text, e.wireText? v = some text := by
  cases v with
  | null | list _ | object _ => cases hv
  | _ => exact ⟨_, rfl⟩

/-- A scalar where one may stand. -/
theorem encodable_scalar (hs : takesScalar (s.map e.registry.resolve) = true)
    (hv : v.hasText = true) : Encodable e s v := by
  intro verbatim path
  obtain ⟨t, ht⟩ := exists_scalarTree (e := e) hv verbatim
  exact ⟨t, encode_of_hasText hv hs ht path⟩

/-! ## What is decoded -/

/-- A reference that is decoded as one, or as nothing. -/
def Convention.finds (c : Convention) (store : Store) (q : Reference) : Bool :=
  (trimText (c.render q)).isEmpty || (c.spelled? store (trimText (c.render q))).isSome

/-- Under a type with parts a text is nothing, or a reference that has been looked up. -/
theorem encodable_scalar_of_finds (h : Refillable e) {text : String}
    (hs : takesScalar (s.map e.registry.resolve) = false)
    (hfound : (text.isEmpty || (e.convention.spelled? store text).isSome) = true)
    (hknows : (e.reader res).Knows store (.text text)) :
    Encodable e s ((e.decoder res keep).scalar text s) := by
  have hreference : (e.decoder res keep).reference? text = e.convention.spelled? store text :=
    hknows.reference?
  unfold Decoder.scalar
  rw [hreference]
  cases hspelled : e.convention.spelled? store text with
  | some q => exact fun verbatim path => ⟨_, rfl⟩
  | none =>
    have hempty : text.isEmpty = true := by simpa [hspelled] using hfound
    have hresolve : (e.decoder res keep).registry.resolve = e.registry.resolve := rfl
    have hobject := h.encodable_empty s
    have hlist : ∀ item, s.map e.registry.resolve = some (.list item) →
        Encodable e s (.list []) := by
      intro item hresolved verbatim path
      have hitem : itemType? (s.map e.registry.resolve) = some (some item) := by rw [hresolved]; rfl
      exact ⟨.array [], encode_list_eq_ok_iff.2 ⟨some item, [], hitem, by rw [encodeItems], rfl⟩⟩
    rw [Decoder.literal, hresolve]
    simp only [hempty, if_true]
    cases hresolved : s.map e.registry.resolve with
    | none =>
      rw [hresolved] at hs
      cases hs
    | some resolved =>
      rw [hresolved] at hs
      cases resolved with
      | primitive kind => cases hs
      | list item => exact hlist item hresolved
      | object o => exact hobject
      | variant v => exact hobject

/-- What is decoded of the fields of an element can be its fields, given this of its children. -/
theorem entryEncodable_readBack {e' : Encoder}
    (ho : ∀ t, o = some t → t.WellKeyed) (hl : e'.Lays o path skipCase fields entries)
    (hchild : ∀ key t, IsFieldName key → (key, t) ∈ entries →
      Encodable e ((declared? o key).map Field.schema)
        ((e.decoder res keep).decode t.reread ((declared? o key).map Field.schema))) :
    ∀ f ∈ (e.decoder res keep).readBack o entries, EntryEncodable e o f := by
  rintro ⟨key, w⟩ hm path
  rcases Decoder.mem_readBack hm with ⟨ha, t, ht, rfl⟩ | ⟨hc, hvariant, t, ht, rfl⟩ | ⟨rfl, rfl⟩
  · obtain ⟨v, text, -, -, rfl, plain⟩ := hl.exists_attribute ho ha ht
    obtain ⟨name, hname⟩ := Option.isSome_iff_exists.1 ha
    exact ⟨_, .attr hname rfl plain⟩
  · have hk : IsFieldName key := by
      by_contra hname
      obtain ⟨_, _, -, -, -, rfl⟩ := hl.exists_data ho hname (isChild_iff.1 hc).1 ht
      split at hc <;> exact absurd hc (by decide)
    obtain ⟨u, hu⟩ := hchild key t hk ht ((declared? o key).any Field.verbatim) (path.child key)
    exact ⟨_, .child hk hu⟩
  · have hdeclared : declared? o Marker.text = none := declared?_eq_none ho (by decide)
    rw [hdeclared, Option.map_none]
    obtain ⟨text, htext⟩ := exists_wireText? (e := e)
      (@Decoder.hasText_scalar (e.decoder res keep) (readText entries) none rfl)
    exact ⟨_, .text htext⟩

section

variable {r : Registry} {c : Convention} {chain limit : Nat}

/-- What is decoded of the trees of a value can be encoded. -/
def Reencodes (r : Registry) (c : Convention) (store : Store) (res : Resolutions) (keep : Bool)
    (chain limit : Nat) (v : Value) : Prop :=
  ∀ s verbatim path t, v.isGrounded r (c.finds store) s = true →
    (chained r c chain).encode v s verbatim path = .ok t →
    ((chained r c limit).reader res).Knows store t.reread →
    Encodable (chained r c limit) s (((chained r c limit).decoder res keep).decode t.reread s)

/-- What is decoded of the entries of a value can be entries again. -/
def EntriesReencode (r : Registry) (c : Convention) (store : Store) (res : Resolutions)
    (keep : Bool) (chain limit : Nat) (v : Value) : Prop :=
  ∀ fields o path skipCase entries, objectFields? v = some fields →
    Value.haveGrounded r (c.finds store) fields o = true → Known (chained r c limit) o →
    (chained r c chain).Lays o path skipCase fields entries →
    KnowsEntries (chained r c limit) store res entries →
    ∀ f ∈ ((chained r c limit).decoder res keep).readBack o entries,
      EntryEncodable (chained r c limit) o f

/-- What is decoded of the default of a field can be encoded. -/
def FillsReencode (r : Registry) (c : Convention) (store : Store) (res : Resolutions) (keep : Bool)
    (chain limit : Nat) : Prop :=
  ∀ o name f path t, .object o ∈ r.types → (name, f) ∈ o.fields →
    fillField r c chain f path = .ok t → ((chained r c limit).reader res).Knows store t.reread →
    Encodable (chained r c limit) (some f.schema)
      (((chained r c limit).decoder res keep).decode t.reread (some f.schema))

variable (h : Refillable (chained r c limit)) (hf : FillsReencode r c store res keep chain limit)

include h hf in
theorem entriesReencode (hv : objectFields? v = some fields) (hd : fields.Distinct)
    (heach : ∀ key v, (key, v) ∈ fields → Reencodes r c store res keep chain limit v) :
    EntriesReencode r c store res keep chain limit v := by
  intro fields o path skipCase entries hfields hground hk hl hknows
  cases hv.symm.trans hfields
  have ho := h.wellKeyed hk
  have hdistinct := hl.distinct ho hd
  refine entryEncodable_readBack ho hl fun key t hkey ht => ?_
  have hknown := hknows.child hdistinct hkey ht
  rcases hl.cases_child hkey ht with ⟨v, hm, ht⟩ | ⟨f, hm, hfill⟩
  · have hmem := List.mem_of_mem_filter hm
    exact heach _ _ hmem _ _ _ _ (Value.haveGrounded_iff.1 hground _ _ hmem) ht hknown
  · rw [declared?_of_mem_missingFields ho hm]
    obtain ⟨⟨u, rfl, hmem⟩, -, -⟩ := mem_missingFields.1 hm
    exact hf u key f _ t (hk u rfl) hmem hfill hknown

omit h hf in
theorem entryEncodable_untyped {case : String} {back : Entries Value}
    (hdeclared : declared? o Marker.untypedCase = none)
    (heach : ∀ f ∈ back, EntryEncodable (chained r c limit) o f) :
    ∀ f ∈ Entries.extend [(Marker.untypedCase, .string case)] back,
      EntryEncodable (chained r c limit) o f := by
  rintro ⟨key, w⟩ hm
  rcases Entries.mem_extend hm with hm | hm
  · obtain ⟨rfl, rfl⟩ := Prod.mk.inj (List.mem_singleton.1 hm)
    intro path
    have hcase : Encodable (chained r c limit) ((declared? o Marker.untypedCase).map Field.schema)
        (.string case) := by
      rw [hdeclared]
      exact encodable_scalar rfl rfl
    obtain ⟨t, ht⟩ := hcase _ _
    exact ⟨_, .child (by decide) ht⟩
  · exact heach _ hm

omit hf in
include h in
/-- What is decoded of the element of a plain object: an object, or the text of an element that no
type gives parts. -/
theorem decode_finished (hplain : plainType? (s.map r.resolve) = some o)
    (hl : (chained r c chain).Lays o path (untypedCase? fields o).isSome fields entries)
    {collapse : Bool}
    (hfinished : Finished entries collapse ((untypedCase? fields o).or (o.bind ObjectType.tag)) t)
    (heach : KnowsEntries (chained r c limit) store res entries →
      ∀ f ∈ ((chained r c limit).decoder res keep).readBack o entries,
        EntryEncodable (chained r c limit) o f)
    (hknows : ((chained r c limit).reader res).Knows store t.reread) :
    (∃ back, ((chained r c limit).decoder res keep).decode t.reread s = .object back ∧
        ∀ f ∈ back, EntryEncodable (chained r c limit) o f) ∨
      o = none ∧ (((chained r c limit).decoder res keep).decode t.reread s).hasText = true := by
  have hk : Known (chained r c limit) o := fun _ =>
    mem_types_of_plainType? hplain
  have ho := h.wellKeyed hk
  have hv := hl.variant_not_mem ho
  have hkind : Decoder.KindFree entries := fun t ht => hl.kind ho ht
  generalize hcase : (untypedCase? fields o).or (o.bind ObjectType.tag) = case at hfinished
  cases hfinished with
  | blank _ =>
    rw [Decoder.decode_reread_null]
    exact .inl ⟨[], rfl, by simp⟩
  | bare _ =>
    obtain ⟨huntyped, htag⟩ := Option.or_eq_none_iff.1 hcase
    cases hparts : hasParts entries with
    | true =>
      have hhint : ((chained r c limit).decoder res keep).objectHint s = o :=
        Decoder.objectHint_of_plainType? hplain
      rw [Decoder.decode_reread_plain hparts hkind hv, hhint]
      exact .inl ⟨_, rfl, heach (knowsEntries_plain hkind hparts hknows)⟩
    | false =>
      rw [huntyped] at hl
      cases o with
      | some u =>
        have hparted : Parted (some u) := ⟨u, rfl, h.parted u (hk u rfl) htag⟩
        rw [hasParts_of_lays ho hl (.inl hparted)] at hparts
        cases hparts
      | none =>
        have hs : takesScalar (s.map r.resolve) = true := takesScalar_of_plainType? hplain
        rw [reread_map, hparts, if_neg Bool.false_ne_true, Decoder.decode]
        exact .inr ⟨rfl, Decoder.hasText_scalar _ _ hs⟩
  | @case name marked hm =>
    have hback := heach (hm.knowsEntries hkind hknows)
    rw [hm.decode hkind hv, Decoder.asCase_of_plainType? hplain]
    split
    · exact .inl ⟨_, rfl, hback⟩
    · next hne =>
      cases huntyped : untypedCase? fields o with
      | some case =>
        exact .inl ⟨_, rfl, entryEncodable_untyped (untypedCase?_eq_some huntyped).2 hback⟩
      | none =>
        rw [huntyped, Option.none_or] at hcase
        obtain ⟨u, rfl, htag⟩ := Option.bind_eq_some_iff.1 hcase
        rw [trimText_of_unpadded (h.tag u name (hk u rfl) htag)] at hne
        exact absurd hcase hne

omit h hf in
/-- What is read of the text of a scalar is a scalar. -/
theorem hasText_decode_scalarTree (d : Decoder) (hv : v.asReference? = none)
    (hs : takesScalar (s.map d.registry.resolve) = true)
    (ht : (chained r c chain).scalarTree verbatim v = some t) :
    (d.decode t.reread s).hasText = true := by
  have htext : ∀ text, (d.decode (Tree.text text).reread s).hasText = true := by
    intro text
    rw [reread, trimmed, normal, Decoder.decode]
    exact d.hasText_scalar _ hs
  cases v with
  | bool b =>
    obtain rfl := Option.some.inj ht
    rw [Decoder.decode_reread_boolean]
    rfl
  | number n => exact Option.some.inj ht ▸ htext n.text
  | string text =>
    obtain rfl := Option.some.inj ht
    unfold stringTree
    split
    · rw [Decoder.decode_reread_verbatim]
      exact d.hasText_scalar text hs
    · split
      · rw [Decoder.decode_reread_string]
        rfl
      · exact htext text
  | reference q => cases hv
  | _ => cases ht

omit hf h in
theorem exists_encodeItems {e : Encoder} {item : Option Schema} {items : List Value}
    (heach : ∀ v ∈ items, Encodable e item v) (path : Path) (i : Nat) :
    ∃ ts, e.encodeItems items item path i = .ok ts := by
  induction items generalizing i with
  | nil => exact ⟨[], by rw [encodeItems]⟩
  | cons v rest ih =>
    obtain ⟨t, ht⟩ := heach v List.mem_cons_self false (path.child (toString i))
    obtain ⟨ts, hts⟩ := ih (fun w hw => heach w (List.mem_cons_of_mem _ hw)) (i + 1)
    exact ⟨t :: ts, by rw [encodeItems, ht, hts]; rfl⟩

omit h hf in
/-- Scalars stay scalars. -/
theorem reencodes_scalar (hv : v.hasText = true) (hreference : v.asReference? = none) :
    Reencodes r c store res keep chain limit v := by
  intro s verbatim path t _ ht _
  have hs : takesScalar (s.map r.resolve) = true :=
    takesScalar_of_encode (e := chained r c chain) hv hreference ht
  obtain ⟨u, hu⟩ := exists_scalarTree (e := chained r c chain) hv verbatim
  have htree := encode_scalar (by rw [hu]; exact Option.some_ne_none u) ht
  exact encodable_scalar hs (hasText_decode_scalarTree _ hreference hs htree)

omit hf in
include h in
/-- A reference stays a scalar where one may stand, and is looked up where none may. -/
theorem reencodes_reference (q : Reference) :
    Reencodes r c store res keep chain limit (.reference q) := by
  intro s verbatim path t hground ht hknows
  rw [encode] at ht
  obtain rfl := Except.ok.inj ht
  rw [Value.isGrounded, Bool.or_eq_true] at hground
  rw [reread, trimmed, normal] at hknows ⊢
  rw [Decoder.decode]
  cases hs : takesScalar (s.map r.resolve) with
  | true =>
    exact encodable_scalar hs (Decoder.hasText_scalar _ _ hs)
  | false =>
    rw [hs] at hground
    exact encodable_scalar_of_finds h hs (hground.resolve_left Bool.false_ne_true) hknows

omit hf in
include h in
theorem reencodes_list {items : List Value}
    (heach : ∀ v ∈ items, Reencodes r c store res keep chain limit v) :
    Reencodes r c store res keep chain limit (.list items) := by
  intro s verbatim path t hground ht hknows
  have hr : r.WellKeyed := h.keyed
  obtain ⟨item, ts, hitem, hts, rfl⟩ := encode_list_eq_ok_iff.1 ht
  have hitem : itemType? (s.map r.resolve) = some item := hitem
  rw [Value.isGrounded, hitem] at hground
  have hencoded := forall₂_of_encodeItems hts
  have hhint : ((chained r c limit).decoder res keep).itemHint s = item :=
    Decoder.itemHint_of_itemType? hitem
  rw [decode_encoded_list (e := chained r c chain) hr hencoded, hhint]
  intro verbatim path
  have hitems : ∀ w ∈ (ts.map fun t =>
      ((chained r c limit).decoder res keep).decode t.reread item).filter
        ((chained r c limit).decoder res keep).keeps, Encodable (chained r c limit) item w := by
    intro w hw
    obtain ⟨t, ht, rfl⟩ := List.mem_map.1 (List.mem_of_mem_filter hw)
    obtain ⟨v, hv, q, hq⟩ := mem_of_forall₂_right hencoded ht
    exact heach v hv item false q t (Value.areGrounded_iff.1 hground v hv) hq
      (knows_of_mem_array hknows ht)
  obtain ⟨us, hus⟩ := exists_encodeItems hitems path 0
  exact ⟨.array us, encode_list_eq_ok_iff.2 ⟨item, us, hitem, hus, rfl⟩⟩

omit hf in
include h in
/-- What is decoded of the element of a case can be encoded. A case that its type implies is the
only one. -/
theorem encodable_decoded_case {v : VariantType} {case : String} {schema : Schema}
    (hs : s.map r.resolve = some (.variant v)) (hc : v.case? case = some schema)
    (hsole : v.isInline = true → v.soleCase? = some (case, schema)) (hd : fields.Distinct)
    (hl : (chained r c chain).Lays (r.objectOf? schema) path false fields entries)
    (hback : KnowsEntries (chained r c limit) store res entries →
      ∀ f ∈ ((chained r c limit).decoder res keep).readBack (r.objectOf? schema) entries,
        EntryEncodable (chained r c limit) (r.objectOf? schema) f)
    (hknows : ((chained r c limit).reader res).Knows store (finishCase case entries).reread) :
    Encodable (chained r c limit) s
      (((chained r c limit).decoder res keep).decode (finishCase case entries).reread s) := by
  have ho : ∀ t, r.objectOf? schema = some t → t.WellKeyed := fun t ht => h.keyed.of_objectOf? ht
  have hkind : Decoder.KindFree entries := fun t ht => hl.kind ho ht
  have hm : Marks case entries _ := .first
  rw [finishCase_eq ho hd hl] at hknows ⊢
  have hback := hback (hm.knowsEntries hkind hknows)
  rw [hm.decode_case (d := (chained r c limit).decoder res keep) hkind (hl.variant_not_mem ho)
    (h.unpadded_case hs hc) hs hc]
  cases hinline : v.isInline with
  | true => exact h.encodable_inline hs hinline (hsole hinline) hback
  | false => exact h.encodable_explicit hs hinline hc hback

omit hf in
include h in
/-- The induction step for objects: the fields are those of the object, or of the payload of a case. -/
theorem reencodes_object (hk : (Value.object fields).Keyed)
    (hentries : EntriesReencode r c store res keep chain limit (.object fields))
    (hinner : ∀ key v, (key, v) ∈ fields → EntriesReencode r c store res keep chain limit v) :
    Reencodes r c store res keep chain limit (.object fields) := by
  intro s verbatim path t hground ht hknows
  have hr : r.WellKeyed := h.keyed
  have hshape := (encode_object_eq_ok_iff (e := chained r c chain) hr).1 ht
  rw [Value.isGrounded] at hground
  generalize hresolved : s.map (chained r c chain).registry.resolve = resolved at hshape
  have hresolved : s.map r.resolve = resolved := hresolved
  have hobjectOf : ∀ schema, Known (chained r c limit) (r.objectOf? schema) :=
    fun schema t ht => Registry.mem_types_of_objectOf? ht
  rw [hresolved] at hground
  cases hshape with
  | @plain _ o entries hplain hl =>
    rw [hplain] at hground
    rw [← hresolved] at hplain
    have hknown : Known (chained r c limit) o := fun _ =>
      mem_types_of_plainType? hplain
    rcases decode_finished h hplain hl (finished_finishObject (h.wellKeyed hknown) hk.distinct hl _
        true) (fun hentries' => hentries fields o path _ entries rfl hground hknown hl hentries')
      hknows with ⟨back, hback, heach⟩ | ⟨rfl, htext⟩
    · rw [hback]
      exact h.encodable_plain hplain heach
    · exact encodable_scalar (takesScalar_of_plainType? hplain) htext
  | blank _ _ =>
    rw [Decoder.decode_reread_null]
    exact h.encodable_empty s
  | @explicit v case schema payload inner entries hc hfields hp hl =>
    obtain ⟨hinline, hcase, -⟩ := explicitCase?_eq_some_iff.1 hc
    have hpayload : (case, payload) ∈ fields := by simp [hfields]
    have hdinner : inner.Distinct := distinct_of_objectFields? (hk.of_mem_fields hpayload) hp
    have hgroundinner :
        Value.haveGrounded r (c.finds store) inner (r.objectOf? schema) = true := by
      have hpayloadground :
          Value.isPayloadGrounded r (c.finds store) fields (r.objectOf? schema) = true := by
        simpa only [plainType?, hc] using hground
      rw [hfields] at hpayloadground
      cases payload with
      | object _ => cases hp; exact hpayloadground
      | null => cases hp; rw [Value.haveGrounded]
      | _ => cases hp
    exact encodable_decoded_case h hresolved hcase (fun hsole => by rw [hinline] at hsole; cases hsole)
      hdinner hl (fun hentries' => hinner case payload hpayload inner _ _ _ _ hp hgroundinner
        (hobjectOf schema) hl hentries') hknows
  | @implied v case schema entries hne hc hsole hl =>
    have hgroundfields :
        Value.haveGrounded r (c.finds store) fields (r.objectOf? schema) = true := by
      simpa only [plainType?, hc, hsole, Option.bind_some] using hground
    exact encodable_decoded_case h hresolved (VariantType.case?_of_soleCase? hsole) (fun _ => hsole)
      hk.distinct hl (fun hentries' => hentries fields _ _ _ _ rfl hgroundfields (hobjectOf schema) hl
        hentries') hknows

include h hf in
/-- What is decoded of the trees of a grounded value can be encoded. -/
theorem reencodes_of_keyed (hk : v.Keyed) : Reencodes r c store res keep chain limit v ∧
    EntriesReencode r c store res keep chain limit v := by
  have hleaf : ∀ v : Value, objectFields? v = none →
      EntriesReencode r c store res keep chain limit v := by
    intro v hnone fields o path skipCase entries hfields
    cases hnone.symm.trans hfields
  induction hk with
  | null =>
    refine ⟨fun s verbatim path t _ ht _ => ?_, entriesReencode h hf rfl List.nodup_nil (by simp)⟩
    rw [encode] at ht
    obtain rfl := Except.ok.inj ht
    rw [Decoder.decode_reread_null]
    exact h.encodable_empty s
  | bool b => exact ⟨reencodes_scalar rfl rfl, hleaf _ rfl⟩
  | number n => exact ⟨reencodes_scalar rfl rfl, hleaf _ rfl⟩
  | string text => exact ⟨reencodes_scalar rfl rfl, hleaf _ rfl⟩
  | reference q => exact ⟨reencodes_reference h q, hleaf _ rfl⟩
  | list _ ih => exact ⟨reencodes_list h fun v hv => (ih v hv).1, hleaf _ rfl⟩
  | @object fields hd hkeyed ih =>
    have hentries : EntriesReencode r c store res keep chain limit (.object fields) :=
      entriesReencode h hf rfl hd fun key v hm => (ih key v hm).1
    exact ⟨reencodes_object h (.object hd hkeyed) hentries fun key v hm => (ih key v hm).2, hentries⟩

include h hf in
/-- What is decoded of a root element is an object whose fields can be encoded there again. -/
theorem exists_decoded_root {schema : Schema} {u : ObjectType} (ho : r.resolve schema = .object u)
    (hk : (Value.object fields).Keyed)
    (hground : (Value.object fields).isGrounded r (c.finds store) (some schema) = true)
    (ht : (chained r c chain).encodeRoot (.object fields) schema = .ok t)
    (hknows : ((chained r c limit).reader res).Knows store t.reread) :
    ∃ back, ((chained r c limit).decoder res keep).decode t.reread (some schema) = .object back ∧
      ∀ f ∈ back, EntryEncodable (chained r c limit) (some u) f := by
  have hplain := plainType?_of_object ho
  have hknown : Known (chained r c limit) (some u) := fun _ =>
    mem_types_of_plainType? hplain
  rw [Value.isGrounded, hplain] at hground
  obtain ⟨entries, hl, rfl⟩ :=
    (encodeRoot_object_eq_ok_iff (e := chained r c chain) h.keyed ho).1 ht
  have hfinished := finished_finishObject (h.wellKeyed hknown) hk.distinct hl
    (untypedCase? fields (some u)) false
  rcases decode_finished h hplain hl hfinished (fun hentries => (reencodes_of_keyed h hf hk).2
      fields _ _ _ _ rfl hground hknown hl hentries) hknows with hback | ⟨hnone, -⟩
  · exact hback
  · cases hnone

end

section

variable {r : Registry} {c : Convention}

/-- No default holds a reference where a type with parts is expected. -/
def Registry.isGrounded (r : Registry) : Bool :=
  r.types.all fun t => match t with
    | .object o => o.fields.all fun f =>
      (r.synthesizeField f.2).isGrounded r (fun _ => false) (some f.2.schema)
    | .variant _ => true

theorem fillsReencode (h : Refillable (ofRegistry r c)) (hg : r.isGrounded = true) (chain : Nat) :
    FillsReencode r c store res keep chain (fieldCount r) := by
  induction chain with
  | zero =>
    intro o name f path t ho hf ht
    cases ht
  | succ chain ih =>
    intro o name f path t ho hf ht hknows
    have hground : (r.synthesizeField f).isGrounded r (fun _ => false) (some f.schema) = true :=
      List.all_eq_true.1 (List.all_eq_true.1 hg _ ho) _ hf
    have hkeyed := h.keyed.synthesizeField (h.keyed.objects o ho) hf
    exact (reencodes_of_keyed h ih hkeyed).1 _ _ _ _
      (Value.isGrounded_mono (by simp) _ _ hground) ht hknows

end

end TaggedMarkup
