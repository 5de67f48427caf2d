import TaggedMarkup.Proofs.Encoding.Inversion
/-!
# Forms of encoded values

`ObjectShape` lists what an object is encoded as: its entries under its own type, a bare null where
nothing is said, or the entries of a case, which is explicit or implied. `RootShape` does the same
for whole definitions. Both are equivalent to an encoding that succeeds.
-/
namespace TaggedMarkup.Encoder

variable {e : Encoder} {path : Path} {fields : Entries Value}

/-- Where a plain object may stand, and the type that declares its fields there. -/
def plainType? : Option Resolved → Option (Option ObjectType)
  | none => some none
  | some (.primitive .unknown) => some none
  | some (.object o) => some (some o)
  | _ => none

/-- Where a list may stand, and the schema of its items there. -/
def itemType? : Option Resolved → Option (Option Schema)
  | none => some none
  | some (.primitive .unknown) => some none
  | some (.list item) => some (some item)
  | _ => none

def takesScalar : Option Resolved → Bool
  | none => true
  | some (.primitive _) => true
  | _ => false

/-- The fields of an object that may be left null. -/
def objectFields? : Value → Option (Entries Value)
  | .object fields => some fields
  | .null => some []
  | _ => none

theorem expectScalar_eq_ok_iff {resolved : Option Resolved} {v : Value} {u : Unit} :
    expectScalar resolved v path = .ok u ↔ takesScalar resolved = true := by
  match resolved with
  | none => simp [expectScalar, takesScalar]
  | some (.primitive _) => simp [expectScalar, takesScalar]
  | some (.list _) => simp [expectScalar, takesScalar, conflict, mismatch]
  | some (.object _) => simp [expectScalar, takesScalar, conflict, mismatch]
  | some (.variant _) => simp [expectScalar, takesScalar, conflict, mismatch]

theorem expectList_eq_ok_iff {resolved : Option Resolved} {v : Value} {item : Option Schema} :
    expectList resolved v path = .ok item ↔ itemType? resolved = some item := by
  match resolved with
  | none => simp [expectList, itemType?]
  | some (.primitive kind) => cases kind <;> simp [expectList, itemType?, conflict, mismatch]
  | some (.list _) => simp [expectList, itemType?]
  | some (.object _) => simp [expectList, itemType?, conflict, mismatch]
  | some (.variant _) => simp [expectList, itemType?, conflict, mismatch]

/-- What an object is encoded as. -/
inductive ObjectShape (e : Encoder) (fields : Entries Value) (path : Path) :
    Option Resolved → Tree → Prop
  | plain {resolved : Option Resolved} {o : Option ObjectType} {entries : Entries Tree}
      (ht : plainType? resolved = some o)
      (hl : e.Lays o path (untypedCase? fields o).isSome fields entries) :
      ObjectShape e fields path resolved (finishObject (untypedCase? fields o) o true entries)
  | blank {resolved : Option Resolved} (ht : plainType? resolved = none) (hf : fields = []) :
      ObjectShape e fields path resolved .null
  | explicit {v : VariantType} {case : String} {schema : Schema} {payload : Value}
      {inner : Entries Value} {entries : Entries Tree}
      (hc : explicitCase? v fields = some (case, schema)) (hf : fields = [(case, payload)])
      (hp : objectFields? payload = some inner)
      (hl : e.Lays (e.registry.objectOf? schema) (path.child case) false inner entries) :
      ObjectShape e fields path (some (.variant v)) (finishCase case entries)
  | implied {v : VariantType} {case : String} {schema : Schema} {entries : Entries Tree}
      (hf : fields ≠ []) (hc : explicitCase? v fields = none)
      (hs : v.soleCase? = some (case, schema))
      (hl : e.Lays (e.registry.objectOf? schema) path false fields entries) :
      ObjectShape e fields path (some (.variant v)) (finishCase case entries)

theorem explicitCase?_eq_some_iff {v : VariantType} {case : String} {schema : Schema} :
    explicitCase? v fields = some (case, schema) ↔
      v.isInline = false ∧ v.case? case = some schema ∧ ∃ payload, fields = [(case, payload)] := by
  unfold explicitCase?
  split
  · next name payload hinline =>
    rw [Option.map_eq_some_iff]
    constructor
    · rintro ⟨s, hs, he⟩
      obtain ⟨rfl, rfl⟩ := Prod.mk.inj he
      exact ⟨hinline, hs, payload, rfl⟩
    · rintro ⟨-, hs, payload, he⟩
      obtain ⟨rfl, rfl⟩ := Prod.mk.inj (List.cons.inj he).1
      exact ⟨schema, hs, rfl⟩
  · next h =>
    simp only [reduceCtorEq, false_iff, not_and, not_exists]
    rintro hinline - payload rfl
    exact h case payload hinline rfl

theorem explicitCase?_eq_none_of_isInline {v : VariantType} (hinline : v.isInline = true) :
    explicitCase? v fields = none := by
  cases hc : explicitCase? v fields with
  | none => rfl
  | some c =>
    rw [(explicitCase?_eq_some_iff.1 hc).1] at hinline
    cases hinline

/-- Fields name no case where others with the same single key name none. -/
theorem explicitCase?_eq_none_of_single {v : VariantType} {more : Entries Value}
    (h : ∀ case w, more = [(case, w)] → ∃ payload, fields = [(case, payload)])
    (hc : explicitCase? v fields = none) : explicitCase? v more = none := by
  rw [Option.eq_none_iff_forall_not_mem]
  rintro ⟨case, s⟩ hcase
  obtain ⟨hinline, hs, w, hmore⟩ := explicitCase?_eq_some_iff.1 hcase
  rw [explicitCase?_eq_some_iff.2 ⟨hinline, hs, h case w hmore⟩] at hc
  cases hc

theorem impliedCase_eq_ok_iff {v : VariantType} {c : String × Schema} :
    impliedCase v fields path = .ok c ↔ v.soleCase? = some c := by
  unfold impliedCase
  cases v.soleCase? with
  | some d => simp
  | none =>
    simp only [reduceCtorEq, iff_false]
    intro h
    split at h <;> simp_all [mismatch]

theorem encodePayload_eq_ok_iff {o : Option ObjectType} (ho : ∀ t, o = some t → t.WellKeyed)
    {case : String} {payload : Value} {entries : Entries Tree} :
    e.encodePayload [(case, payload)] o path = .ok entries ↔
      ∃ inner, objectFields? payload = some inner ∧
        e.Lays o (path.child case) false inner entries := by
  cases payload with
  | object inner => simpa [encodePayload, objectFields?] using lays_iff ho
  | null =>
    have h : (e.encodeFields false [] o (path.child case) >>= fun own =>
        e.withMissing own [] o (path.child case)) = .ok entries ↔
        e.Lays o (path.child case) false [] entries := lays_iff ho
    simpa [encodePayload, objectFields?, encodeFields, bind, Except.bind, Entries.keys] using h
  | _ => simp [encodePayload, objectFields?, mismatch]

variable {schema : Option Schema} {verbatim : Bool} {t : Tree}

theorem finish_eq_ok_iff {o : Option ObjectType} (ho : ∀ t, o = some t → t.WellKeyed)
    {skipCase : Bool} {finish : Entries Tree → Tree} :
    (e.encodeFields skipCase fields o path >>= fun own =>
      e.withMissing own fields o path >>= fun entries => pure (finish entries)) = .ok t ↔
      ∃ entries, e.Lays o path skipCase fields entries ∧ finish entries = t := by
  simp only [← lays_iff ho, bind_eq_ok_iff, pure_eq_ok_iff]
  constructor
  · rintro ⟨own, hown, entries, hentries, rfl⟩
    exact ⟨entries, ⟨own, hown, hentries⟩, rfl⟩
  · rintro ⟨entries, ⟨own, hown, hentries⟩, rfl⟩
    exact ⟨own, hown, entries, hentries, rfl⟩

theorem finish_untyped_eq_ok_iff {skipCase : Bool} {finish : Entries Tree → Tree} :
    (e.encodeFields skipCase fields none path >>= fun entries => pure (finish entries)) = .ok t ↔
      ∃ entries, e.Lays none path skipCase fields entries ∧ finish entries = t := by
  have hnone : ∀ t : ObjectType, none = some t → t.WellKeyed := by simp
  exact finish_eq_ok_iff hnone

theorem objectShape_plain_iff {resolved : Option Resolved} {o : Option ObjectType}
    (ht : plainType? resolved = some o) :
    e.ObjectShape fields path resolved t ↔
      ∃ entries, e.Lays o path (untypedCase? fields o).isSome fields entries ∧
        finishObject (untypedCase? fields o) o true entries = t := by
  constructor
  · intro h
    cases h with
    | plain ht' hl =>
      cases ht.symm.trans ht'
      exact ⟨_, hl, rfl⟩
    | blank ht' _ => cases ht.symm.trans ht'
    | explicit => cases ht
    | implied => cases ht
  · rintro ⟨entries, hl, rfl⟩
    exact .plain ht hl

theorem objectShape_blank_iff {resolved : Option Resolved} (ht : plainType? resolved = none)
    (hv : ∀ v, resolved ≠ some (.variant v)) :
    e.ObjectShape fields path resolved t ↔ fields = [] ∧ t = .null := by
  constructor
  · intro h
    cases h with
    | plain ht' _ => cases ht.symm.trans ht'
    | blank _ hf => exact ⟨hf, rfl⟩
    | explicit => exact absurd rfl (hv _)
    | implied => exact absurd rfl (hv _)
  · rintro ⟨hf, rfl⟩
    exact .blank ht hf

theorem encode_variant_eq_ok_iff (hr : e.registry.WellKeyed) {v : VariantType}
    (hresolved : schema.map e.registry.resolve = some (.variant v)) :
    e.encode (.object fields) schema verbatim path = .ok t ↔
      e.ObjectShape fields path (some (.variant v)) t := by
  have hobject : ∀ s t, e.registry.objectOf? s = some t → t.WellKeyed :=
    fun s t => hr.of_objectOf?
  rw [encode, hresolved]
  simp only
  split
  · next hempty =>
    have hf : fields = [] := List.isEmpty_iff.1 hempty
    constructor
    · intro h
      cases h
      exact .blank rfl hf
    · intro h
      cases h with
      | plain ht _ => cases ht
      | blank _ _ => rfl
      | explicit _ hf' _ _ => cases hf.symm.trans hf'
      | implied hne _ _ _ => exact absurd hf hne
  · next hne =>
    have hf : fields ≠ [] := fun hf => hne (by simp [hf])
    split
    · next case s hc =>
      obtain ⟨-, -, payload, hfields⟩ := explicitCase?_eq_some_iff.1 hc
      simp only [bind_eq_ok_iff, pure_eq_ok_iff]
      constructor
      · rintro ⟨entries, hp, rfl⟩
        rw [hfields] at hp
        obtain ⟨inner, hinner, hl⟩ := (encodePayload_eq_ok_iff (hobject s)).1 hp
        exact .explicit hc hfields hinner hl
      · intro h
        cases h with
        | plain ht _ => cases ht
        | blank _ hf' => exact absurd hf' hf
        | explicit hc' hfields' hp hl =>
          obtain ⟨rfl, rfl⟩ := Prod.mk.inj (Option.some.inj (hc.symm.trans hc'))
          refine ⟨_, ?_, rfl⟩
          rw [hfields']
          exact (encodePayload_eq_ok_iff (hobject _)).2 ⟨_, hp, hl⟩
        | implied _ hc' _ _ => cases hc.symm.trans hc'
    · next hc =>
      constructor
      · intro h
        obtain ⟨⟨case, s⟩, hs, h⟩ := bind_eq_ok_iff.1 h
        obtain ⟨entries, hl, rfl⟩ := (finish_eq_ok_iff (hobject s)).1 h
        exact .implied hf hc (impliedCase_eq_ok_iff.1 hs) hl
      · intro h
        cases h with
        | plain ht _ => cases ht
        | blank _ hf' => exact absurd hf' hf
        | explicit hc' _ _ _ => cases hc.symm.trans hc'
        | @implied _ case s entries _ _ hs hl =>
          exact bind_eq_ok_iff.2 ⟨(case, s), impliedCase_eq_ok_iff.2 hs,
            (finish_eq_ok_iff (hobject s)).2 ⟨entries, hl, rfl⟩⟩

/-- An object is encoded exactly if it has one of the forms. -/
theorem encode_object_eq_ok_iff (hr : e.registry.WellKeyed) :
    e.encode (.object fields) schema verbatim path = .ok t ↔
      e.ObjectShape fields path (schema.map e.registry.resolve) t := by
  have hblank : ∀ resolved : Resolved,
      (if fields.isEmpty then .ok Tree.null else conflict path resolved (.object fields)) =
        .ok t ↔ fields = [] ∧ t = .null := by
    intro resolved
    cases fields <;> simp [conflict, mismatch, eq_comm]
  match hresolved : schema.map e.registry.resolve with
  | some (.variant v) => exact encode_variant_eq_ok_iff hr hresolved
  | none =>
    rw [encode, hresolved]
    exact finish_untyped_eq_ok_iff.trans (objectShape_plain_iff rfl).symm
  | some (.primitive .unknown) =>
    rw [encode, hresolved]
    exact finish_untyped_eq_ok_iff.trans (objectShape_plain_iff rfl).symm
  | some (.object o) =>
    have ho : ∀ t, some o = some t → t.WellKeyed := by
      rintro t ht
      obtain ⟨s, -, hs⟩ := Option.map_eq_some_iff.1 hresolved
      exact Option.some.inj ht ▸ hr.of_resolve hs
    rw [encode, hresolved]
    exact (finish_eq_ok_iff ho).trans (objectShape_plain_iff rfl).symm
  | some (.primitive .string) | some (.primitive .number) | some (.primitive .boolean)
  | some (.list _) =>
    rw [encode, hresolved]
    exact (hblank _).trans (objectShape_blank_iff rfl (by simp)).symm

/-! ## The case of an object -/

section

variable {w : VariantType} {case : String} {s : Schema} {entries : Entries Tree}
  (hr : e.registry.WellKeyed) (hs : schema.map e.registry.resolve = some (.variant w))

include hr hs

/-- An object that names its case is encoded as the fields of its payload are laid. -/
theorem encode_payload_eq_ok_iff (hinline : w.isInline = false) (hc : w.case? case = some s) :
    e.encode (.object [(case, .object fields)]) schema verbatim path = .ok t ↔
      ∃ entries, e.Lays (e.registry.objectOf? s) (path.child case) false fields entries ∧
        finishCase case entries = t := by
  have hexplicit : explicitCase? w [(case, Value.object fields)] = some (case, s) :=
    explicitCase?_eq_some_iff.2 ⟨hinline, hc, _, rfl⟩
  rw [encode_variant_eq_ok_iff hr hs]
  constructor
  · intro hshape
    cases hshape with
    | plain hplain _ => cases hplain
    | blank _ hnil => cases hnil
    | explicit hc' hf hp hl =>
      obtain ⟨rfl, rfl⟩ := Prod.mk.inj (Option.some.inj (hexplicit.symm.trans hc'))
      obtain ⟨-, rfl⟩ := Prod.mk.inj (List.singleton_inj.1 hf)
      obtain rfl := Option.some.inj hp
      exact ⟨_, hl, rfl⟩
    | implied _ hc' _ _ => cases hexplicit.symm.trans hc'
  · rintro ⟨entries, hl, rfl⟩
    exact .explicit hexplicit rfl rfl hl

/-- An object that stands for the only case is encoded as its fields are laid. -/
theorem encode_sole_eq_ok_iff (hne : fields ≠ []) (hnot : explicitCase? w fields = none)
    (hsole : w.soleCase? = some (case, s)) :
    e.encode (.object fields) schema verbatim path = .ok t ↔
      ∃ entries, e.Lays (e.registry.objectOf? s) path false fields entries ∧
        finishCase case entries = t := by
  rw [encode_variant_eq_ok_iff hr hs]
  constructor
  · intro hshape
    cases hshape with
    | plain hplain _ => cases hplain
    | blank _ hnil => exact absurd hnil hne
    | explicit hc _ _ _ => cases hnot.symm.trans hc
    | implied _ _ hsole' hl =>
      obtain ⟨rfl, rfl⟩ := Prod.mk.inj (Option.some.inj (hsole.symm.trans hsole'))
      exact ⟨_, hl, rfl⟩
  · rintro ⟨entries, hl, rfl⟩
    exact .implied hne hnot hsole hl

/-- An object that names its case. -/
theorem encode_explicit (hinline : w.isInline = false) (hc : w.case? case = some s)
    (hl : e.Lays (e.registry.objectOf? s) (path.child case) false fields entries) :
    e.encode (.object [(case, .object fields)]) schema verbatim path =
      .ok (finishCase case entries) :=
  (encode_payload_eq_ok_iff hr hs hinline hc).2 ⟨entries, hl, rfl⟩

/-- An object that stands for the only case. -/
theorem encode_inline (hinline : w.isInline = true) (hsole : w.soleCase? = some (case, s))
    (hne : fields ≠ []) (hl : e.Lays (e.registry.objectOf? s) path false fields entries) :
    e.encode (.object fields) schema verbatim path = .ok (finishCase case entries) :=
  (encode_sole_eq_ok_iff hr hs hne (explicitCase?_eq_none_of_isInline hinline) hsole).2
    ⟨entries, hl, rfl⟩

end

section

variable {o : Option ObjectType} {skipCase : Bool} {entries : Entries Tree}

theorem finishCase_eq (ho : ∀ t, o = some t → t.WellKeyed) (hd : fields.Distinct)
    (hl : e.Lays o path skipCase fields entries) (case : String) :
    finishCase case entries = .map ((Marker.variant, .text case) :: entries) := by
  rw [finishCase, extend_variant (hl.distinct ho hd) (hl.variant_not_mem ho)]

theorem finishObject_some (ho : ∀ t, o = some t → t.WellKeyed) (hd : fields.Distinct)
    (hl : e.Lays o path skipCase fields entries) (case : String) (collapse : Bool) :
    finishObject (some case) o collapse entries = .map ((Marker.variant, .text case) :: entries) := by
  rw [finishObject, extend_variant (hl.distinct ho hd) (hl.variant_not_mem ho)]

theorem finishObject_tag (ho : ∀ t, o = some t → t.WellKeyed)
    (hl : e.Lays o path skipCase fields entries) {tag : String}
    (ht : o.bind ObjectType.tag = some tag) (collapse : Bool) :
    finishObject none o collapse entries = .map (entries ++ [(Marker.variant, .text tag)]) := by
  simp only [finishObject, ht]
  rw [Entries.insert_of_not_mem (hl.variant_not_mem ho)]

theorem finishObject_none (ht : o.bind ObjectType.tag = none) (collapse : Bool) :
    finishObject none o collapse entries =
      if collapse ∧ entries.all fun t => t.2.isPlaceholder then .null else .map entries := by
  simp only [finishObject, ht]

end

/-! ## Entries with a case marker -/

/-- Entries with a case marker at one of their ends. -/
inductive Marks (case : String) (entries : Entries Tree) : Entries Tree → Prop
  | first : Marks case entries ((Marker.variant, .text case) :: entries)
  | last : Marks case entries (entries ++ [(Marker.variant, .text case)])

namespace Marks

variable {case : String} {entries marked : Entries Tree}

theorem mem_iff (h : Marks case entries marked) {a : String × Tree} :
    a ∈ marked ↔ a = (Marker.variant, .text case) ∨ a ∈ entries := by
  cases h with
  | first => exact List.mem_cons
  | last => rw [List.mem_append, List.mem_singleton, or_comm]

theorem distinct (h : Marks case entries marked) (hd : entries.Distinct)
    (hv : Marker.variant ∉ entries.keys) : marked.Distinct := by
  cases h with
  | first => exact Entries.distinct_cons.2 ⟨hv, hd⟩
  | last =>
    rw [← Entries.insert_of_not_mem hv]
    exact Entries.distinct_insert hd _ _

end Marks

theorem fields_eq_of_objectFields? {v : Value} (h : objectFields? v = some fields) :
    v.fields = fields := by
  cases v <;> cases h <;> rfl

theorem distinct_of_objectFields? {v : Value} (hk : v.Keyed) (h : objectFields? v = some fields) :
    fields.Distinct :=
  fields_eq_of_objectFields? h ▸ hk.distinct_fields

theorem objectFields?_eq_none {v : Value} {text : String} (h : e.wireText? v = some text) :
    objectFields? v = none := by
  cases v with
  | null => cases h
  | object _ => cases h
  | _ => rfl

theorem untypedCase?_eq_some {o : Option ObjectType} {case : String}
    (h : untypedCase? fields o = some case) :
    (Marker.untypedCase, .string case) ∈ fields ∧ declared? o Marker.untypedCase = none := by
  unfold untypedCase? at h
  split at h
  · cases h
  · next hnone =>
    obtain ⟨v, hv, hs⟩ := Option.bind_eq_some_iff.1 h
    cases v <;> cases hs
    refine ⟨Entries.mem_of_get?_eq_some hv, ?_⟩
    cases o with
    | none => rfl
    | some o => simpa [declared?] using And.right (by simpa using hnone)

/-! ## Other values -/

theorem encode_list_eq_ok_iff {items : List Value} :
    e.encode (.list items) schema verbatim path = .ok t ↔
      ∃ item ts, itemType? (schema.map e.registry.resolve) = some item ∧
        e.encodeItems items item path 0 = .ok ts ∧ t = .array ts := by
  rw [encode]
  simp only [bind_eq_ok_iff, expectList_eq_ok_iff, pure_eq_ok_iff]
  constructor
  · rintro ⟨item, hitem, ts, hts, rfl⟩
    exact ⟨item, ts, hitem, hts, rfl⟩
  · rintro ⟨item, ts, hitem, hts, rfl⟩
    exact ⟨item, hitem, ts, hts, rfl⟩

theorem forall₂_of_encodeItems {items : List Value} {item : Option Schema} {i : Nat}
    {ts : List Tree} (h : e.encodeItems items item path i = .ok ts) :
    List.Forall₂ (fun v t => ∃ p, e.encode v item false p = .ok t) items ts := by
  induction items generalizing i ts with
  | nil =>
    cases h
    exact .nil
  | cons v rest ih =>
    rw [encodeItems] at h
    simp only [bind_eq_ok_iff, pure_eq_ok_iff] at h
    obtain ⟨t, ht, more, hmore, rfl⟩ := h
    exact .cons ⟨_, ht⟩ (ih hmore)

/-- The tree of a value whose text is its own. -/
def scalarTree (e : Encoder) (verbatim : Bool) : Value → Option Tree
  | .reference r => some (.text (e.convention.render r))
  | .bool b => some (.typed .boolean (boolText b))
  | .number n => some (.text n.text)
  | .string t => some (stringTree t verbatim)
  | _ => none

/-- A scalar or reference is encoded by itself. -/
theorem encode_scalar {v : Value} (hs : e.scalarTree verbatim v ≠ none)
    (h : e.encode v schema verbatim path = .ok t) : e.scalarTree verbatim v = some t := by
  cases v with
  | null => simp [scalarTree] at hs
  | list => simp [scalarTree] at hs
  | object => simp [scalarTree] at hs
  | reference r =>
    rw [encode] at h
    rw [scalarTree, Except.ok.inj h]
  | _ =>
    rw [encode] at h
    simp only [bind_eq_ok_iff, pure_eq_ok_iff] at h
    obtain ⟨-, -, rfl⟩ := h
    rfl

/-! ## Types at a place -/

section

variable {r : Registry} {schema : Option Schema} {o : Option ObjectType}

theorem takesScalar_of_plainType? {resolved : Option Resolved}
    (h : plainType? resolved = some none) : takesScalar resolved = true := by
  match resolved with
  | none => rfl
  | some (.primitive .unknown) => rfl
  | some (.object _) => cases h

theorem eq_object_of_plainType? {resolved : Option Resolved} {t : ObjectType}
    (h : plainType? resolved = some (some t)) : resolved = some (.object t) := by
  match resolved with
  | some (.object t') => rw [Option.some.inj (Option.some.inj h)]
  | none | some (.primitive .unknown) => cases h

theorem eq_list_of_itemType? {resolved : Option Resolved} {item : Schema}
    (h : itemType? resolved = some (some item)) : resolved = some (.list item) := by
  match resolved with
  | some (.list i) => rw [Option.some.inj (Option.some.inj h)]
  | none | some (.primitive .unknown) => cases h

theorem plainType?_of_object {s : Schema} {t : ObjectType} (h : r.resolve s = .object t) :
    plainType? ((some s).map r.resolve) = some (some t) :=
  congrArg (plainType? ∘ some) h

theorem resolve_of_plainType? {t : ObjectType}
    (h : plainType? (schema.map r.resolve) = some (some t)) :
    ∃ s, schema = some s ∧ r.resolve s = .object t :=
  Option.map_eq_some_iff.1 (eq_object_of_plainType? h)

theorem resolve_of_itemType? {item : Schema}
    (h : itemType? (schema.map r.resolve) = some (some item)) :
    ∃ s, schema = some s ∧ r.resolve s = .list item :=
  Option.map_eq_some_iff.1 (eq_list_of_itemType? h)

theorem mem_types_of_plainType? (h : plainType? (schema.map r.resolve) = some o) {t : ObjectType}
    (ht : o = some t) : .object t ∈ r.types := by
  subst ht
  obtain ⟨s, -, hs⟩ := resolve_of_plainType? h
  exact Registry.mem_types_of_resolve hs

end

/-! ## Whole definitions -/

/-- The element of an object with or without a type, whose case is kept in a field. -/
def body (e : Encoder) (o : Option ObjectType) (collapse : Bool) (fields : Entries Value)
    (path : Path) : Except EncodeError Tree :=
  e.encodeFields (untypedCase? fields o).isSome fields o path >>= fun own =>
    e.withMissing own fields o path >>= fun entries =>
      pure (finishObject (untypedCase? fields o) o collapse entries)

/-- An object where its type or none is asked for. -/
theorem encode_object_plain {o : Option ObjectType}
    (h : plainType? (schema.map e.registry.resolve) = some o) :
    e.encode (.object fields) schema verbatim path = e.body o true fields path := by
  rw [encode]
  generalize schema.map e.registry.resolve = resolved at h
  unfold plainType? at h
  split at h
  · obtain rfl := Option.some.inj h
    rfl
  · obtain rfl := Option.some.inj h
    rfl
  · obtain rfl := Option.some.inj h
    rfl
  · cases h

/-- The root element never collapses where an object of its type or of none is asked for. -/
theorem encodeRoot_object (e : Encoder) (schema : Schema) :
    (∃ o, plainType? (some (e.registry.resolve schema)) = some o ∧
      ∀ fields, e.encodeRoot (.object fields) schema = e.body o false fields .root) ∨
    plainType? (some (e.registry.resolve schema)) = none ∧ ∀ fields,
      e.encodeRoot (.object fields) schema =
        e.encode (.object fields) (some schema) false .root := by
  unfold encodeRoot
  match e.registry.resolve schema with
  | .object o => exact .inl ⟨some o, rfl, fun fields => rfl⟩
  | .primitive .unknown => exact .inl ⟨none, rfl, fun fields => rfl⟩
  | .primitive .string | .primitive .number | .primitive .boolean | .list _ | .variant _ =>
    exact .inr ⟨rfl, fun fields => rfl⟩

/-- What a whole definition is encoded as. -/
inductive RootShape (e : Encoder) (schema : Schema) : Value → Tree → Prop
  | body {v : Value} {fields : Entries Value} {o : Option ObjectType} {entries : Entries Tree}
      (hv : objectFields? v = some fields)
      (ht : plainType? (some (e.registry.resolve schema)) = some o)
      (hl : e.Lays o .root (untypedCase? fields o).isSome fields entries) :
      RootShape e schema v (finishObject (untypedCase? fields o) o false entries)
  | nested {v : Value} {t : Tree}
      (hv : objectFields? v = none ∨ plainType? (some (e.registry.resolve schema)) = none)
      (h : e.encode v (some schema) false .root = .ok t) : RootShape e schema v t

theorem encodeRoot_eq_ok_iff (hr : e.registry.WellKeyed) {schema : Schema} {v : Value} :
    e.encodeRoot v schema = .ok t ↔ e.RootShape schema v t := by
  have hbody : ∀ o : Option ObjectType, (∀ t, o = some t → t.WellKeyed) →
      plainType? (some (e.registry.resolve schema)) = some o →
      ∀ fields, objectFields? v = some fields →
      ((e.encodeFields (untypedCase? fields o).isSome fields o .root >>= fun own =>
        e.withMissing own fields o .root >>= fun entries =>
          pure (finishObject (untypedCase? fields o) o false entries)) = .ok t ↔
        e.RootShape schema v t) := by
    intro o ho ht fields hv
    rw [finish_eq_ok_iff ho]
    constructor
    · rintro ⟨entries, hl, rfl⟩
      exact .body hv ht hl
    · intro h
      cases h with
      | body hv' ht' hl =>
        cases hv.symm.trans hv'
        cases ht.symm.trans ht'
        exact ⟨_, hl, rfl⟩
      | nested hv' _ =>
        rcases hv' with hv' | ht'
        · cases hv.symm.trans hv'
        · cases ht.symm.trans ht'
  have hnested : objectFields? v = none ∨ plainType? (some (e.registry.resolve schema)) = none →
      (e.encode v (some schema) false .root = .ok t ↔ e.RootShape schema v t) := by
    intro hv
    refine ⟨.nested hv, fun h => ?_⟩
    cases h with
    | body hv' ht' _ =>
      rcases hv with hv | hv
      · cases hv.symm.trans hv'
      · cases hv.symm.trans ht'
    | nested _ h => exact h
  unfold encodeRoot
  cases hs : e.registry.resolve schema with
  | object o =>
    have ho : ∀ t, some o = some t → t.WellKeyed :=
      fun t ht => Option.some.inj ht ▸ hr.of_resolve hs
    cases v with
    | object fields => exact hbody (some o) ho (by rw [hs]; rfl) fields rfl
    | null => exact hbody (some o) ho (by rw [hs]; rfl) [] rfl
    | _ => exact hnested (.inl rfl)
  | primitive kind =>
    cases kind with
    | unknown =>
      cases v with
      | object fields => exact hbody none (by simp) (by rw [hs]; rfl) fields rfl
      | null => exact hbody none (by simp) (by rw [hs]; rfl) [] rfl
      | _ => exact hnested (.inl rfl)
    | _ => cases v <;> exact hnested (.inr (by rw [hs]; rfl))
  | _ => cases v <;> exact hnested (.inr (by rw [hs]; rfl))

/-- At a root with an object type an object is always an element, and never collapses. -/
theorem encodeRoot_object_eq_ok_iff (hr : e.registry.WellKeyed) {schema : Schema} {o : ObjectType}
    (ho : e.registry.resolve schema = .object o) :
    e.encodeRoot (.object fields) schema = .ok t ↔
      ∃ entries, e.Lays (some o) .root (untypedCase? fields (some o)).isSome fields entries ∧
        t = finishObject (untypedCase? fields (some o)) (some o) false entries := by
  have hplain := plainType?_of_object ho
  rw [encodeRoot_eq_ok_iff hr]
  constructor
  · intro h
    cases h with
    | body hv ht hl =>
      obtain rfl := Option.some.inj hv
      cases hplain.symm.trans ht
      exact ⟨_, hl, rfl⟩
    | nested hv _ =>
      rcases hv with hv | hv
      · cases hv
      · cases hplain.symm.trans hv
  · rintro ⟨entries, hl, rfl⟩
    exact .body rfl hplain hl

/-- A value without fields is encoded at a root as it is anywhere. -/
theorem encode_of_encodeRoot (hr : e.registry.WellKeyed) {schema : Schema} {v : Value}
    (hv : objectFields? v = none) (h : e.encodeRoot v schema = .ok t) :
    e.encode v (some schema) false .root = .ok t := by
  cases (encodeRoot_eq_ok_iff hr).1 h with
  | body hv' _ _ => cases hv.symm.trans hv'
  | nested _ h => exact h

end TaggedMarkup.Encoder
