import TaggedMarkup.Proofs.Entries
import TaggedMarkup.Encoding
/-!
# Values and registries with distinct keys

Objects are built by insertion, so no key stands twice in one. A registry is well keyed if its
defaults and field lists are such and its fields can be elements; what is filled in from it is then
well keyed as well.
-/
namespace TaggedMarkup

/-- Every object inside has distinct keys. -/
inductive Value.Keyed : Value → Prop
  | null : Keyed .null
  | bool (b : Bool) : Keyed (.bool b)
  | number (n : Number) : Keyed (.number n)
  | string (t : String) : Keyed (.string t)
  | reference (r : Reference) : Keyed (.reference r)
  | list {items : List Value} (each : ∀ v ∈ items, Keyed v) : Keyed (.list items)
  | object {fields : Entries Value} (distinct : fields.Distinct)
      (each : ∀ key v, (key, v) ∈ fields → Keyed v) : Keyed (.object fields)

namespace Value

theorem Keyed.distinct {fields : Entries Value} (h : (Value.object fields).Keyed) :
    fields.Distinct := by
  cases h with
  | object distinct _ => exact distinct

theorem Keyed.of_mem_fields {fields : Entries Value} (h : (Value.object fields).Keyed)
    {key : String} {v : Value} (hm : (key, v) ∈ fields) : v.Keyed := by
  cases h with
  | object _ each => exact each key v hm

theorem Keyed.of_mem_items {items : List Value} (h : (Value.list items).Keyed) {v : Value}
    (hm : v ∈ items) : v.Keyed := by
  cases h with
  | list each => exact each v hm

/-- The fields of any value, none if it is no object. -/
theorem Keyed.object_fields {v : Value} (h : v.Keyed) : (Value.object v.fields).Keyed := by
  cases h with
  | object distinct each => exact .object distinct each
  | _ => exact .object List.nodup_nil nofun

theorem Keyed.distinct_fields {v : Value} (h : v.Keyed) : v.fields.Distinct :=
  h.object_fields.distinct

theorem Keyed.step? {v w : Value} {segment : String} (h : v.Keyed)
    (hs : v.step? segment = some w) : w.Keyed := by
  cases v with
  | object fields => exact h.of_mem_fields (Entries.mem_of_get?_eq_some hs)
  | list items =>
    obtain ⟨i, _, hi⟩ := Option.bind_eq_some_iff.1 hs
    exact h.of_mem_items (List.mem_of_getElem? hi)
  | _ => cases hs

mutual

/-- Decides `Keyed`. -/
def isKeyed : Value → Bool
  | .list items => areKeyed items
  | .object fields => decide (Entries.keys fields).Nodup && haveKeyed fields
  | _ => true

def areKeyed : List Value → Bool
  | [] => true
  | v :: rest => isKeyed v && areKeyed rest

def haveKeyed : List (String × Value) → Bool
  | [] => true
  | (_, v) :: rest => isKeyed v && haveKeyed rest

end

mutual

theorem keyed_of_isKeyed (v : Value) : v.isKeyed = true →
    v.Keyed := by
  match v with
  | .null => exact fun _ => .null
  | .bool b => exact fun _ => .bool b
  | .number n => exact fun _ => .number n
  | .string t => exact fun _ => .string t
  | .reference r => exact fun _ => .reference r
  | .list items =>
    intro h
    rw [isKeyed] at h
    exact .list (keyed_of_areKeyed items h)
  | .object fields =>
    intro h
    rw [isKeyed, Bool.and_eq_true, decide_eq_true_eq] at h
    exact .object h.1 (keyed_of_haveKeyed fields h.2)

theorem keyed_of_areKeyed (items : List Value) : areKeyed items = true →
    ∀ v ∈ items, v.Keyed := by
  match items with
  | [] => simp
  | v :: rest =>
    intro h
    rw [areKeyed, Bool.and_eq_true] at h
    intro w hw
    rcases List.mem_cons.1 hw with he | hw
    · exact he ▸ keyed_of_isKeyed v h.1
    · exact keyed_of_areKeyed rest h.2 w hw

theorem keyed_of_haveKeyed (fields : List (String × Value)) : haveKeyed fields = true →
    ∀ key v, (key, v) ∈ fields → v.Keyed := by
  match fields with
  | [] => simp
  | (key, v) :: rest =>
    intro h
    rw [haveKeyed, Bool.and_eq_true] at h
    intro k w hw
    rcases List.mem_cons.1 hw with he | hw
    · exact (Prod.mk.inj he).2 ▸ keyed_of_isKeyed v h.1
    · exact keyed_of_haveKeyed rest h.2 k w hw

end

end Value

/-- The keys of fields that can be elements: element names other than markers. -/
def IsFieldName (key : String) : Prop :=
  isElementName key = true ∧ Encoder.isReserved key = false

instance (key : String) : Decidable (IsFieldName key) := inferInstanceAs (Decidable (_ ∧ _))

structure ObjectType.WellKeyed (o : ObjectType) : Prop where
  distinct : o.fields.Distinct
  names : ∀ name f, (name, f) ∈ o.fields → IsFieldName name
  defaults : ∀ name f v, (name, f) ∈ o.fields → f.defaultValue = some v → v.Keyed
  default : ∀ v, o.defaultValue = some v → v.Keyed

structure Registry.WellKeyed (r : Registry) : Prop where
  objects : ∀ o, .object o ∈ r.types → o.WellKeyed
  variants : ∀ v d, .variant v ∈ r.types → v.defaultValue = some d → d.Keyed

/-- Decides `WellKeyed`. -/
def ObjectType.isWellKeyed (o : ObjectType) : Bool :=
  decide o.fields.keys.Nodup &&
    (o.fields.all fun f => decide (IsFieldName f.1) && f.2.defaultValue.all Value.isKeyed) &&
    o.defaultValue.all Value.isKeyed

theorem ObjectType.wellKeyed_of_isWellKeyed {o : ObjectType} (h : o.isWellKeyed = true) :
    o.WellKeyed := by
  rw [isWellKeyed, Bool.and_eq_true, Bool.and_eq_true, decide_eq_true_eq] at h
  obtain ⟨⟨hdistinct, hfields⟩, hdefault⟩ := h
  have heach : ∀ name f, (name, f) ∈ o.fields →
      IsFieldName name ∧ f.defaultValue.all Value.isKeyed = true := by
    intro name f hf
    simpa using List.all_eq_true.1 hfields (name, f) hf
  refine ⟨hdistinct, fun name f hf => (heach name f hf).1, fun name f v hf hv => ?_, fun v hv => ?_⟩
  · have hall := (heach name f hf).2
    rw [hv] at hall
    exact Value.keyed_of_isKeyed v hall
  · rw [hv] at hdefault
    exact Value.keyed_of_isKeyed v hdefault

/-- Decides `WellKeyed`. -/
def Registry.isWellKeyed (r : Registry) : Bool :=
  r.types.all fun t => match t with
    | .object o => o.isWellKeyed
    | .variant v => v.defaultValue.all Value.isKeyed

theorem Registry.wellKeyed_of_isWellKeyed {r : Registry} (h : r.isWellKeyed = true) :
    r.WellKeyed := by
  have heach := List.all_eq_true.1 h
  refine ⟨fun o ho => ObjectType.wellKeyed_of_isWellKeyed (heach _ ho), fun v d hv hd => ?_⟩
  have hall : v.defaultValue.all Value.isKeyed = true := heach _ hv
  rw [hd] at hall
  exact Value.keyed_of_isKeyed d hall

namespace VariantType

variable {v : VariantType} {case case' : String} {schema schema' : Schema}

theorem cases_of_soleCase? (h : v.soleCase? = some (case, schema)) :
    v.cases = [(case, schema)] := by
  unfold soleCase? at h
  split at h
  · next c hc => rw [hc, Option.some.inj h]
  · cases h

/-- The only case of a variant is one of its cases. -/
theorem case?_of_soleCase? (h : v.soleCase? = some (case, schema)) : v.case? case = some schema := by
  rw [case?, cases_of_soleCase? h, Entries.get?_cons, if_pos rfl]

/-- A variant with only one case declares no other. -/
theorem eq_of_soleCase? (hsole : v.soleCase? = some (case', schema'))
    (hc : v.case? case = some schema) : case' = case ∧ schema' = schema := by
  rw [case?, cases_of_soleCase? hsole, Entries.get?_cons] at hc
  split at hc
  · next hk => exact ⟨hk, Option.some.inj hc⟩
  · cases hc

end VariantType

namespace Registry

variable {r : Registry}

theorem mem_types_of_type? {name : String} {t : TypeDef} (h : r.type? name = some t) :
    t ∈ r.types := List.mem_of_find?_eq_some h

theorem name_of_type? {name : String} {t : TypeDef} (h : r.type? name = some t) : t.name = name := by
  simpa using List.find?_some h

/-- A schema that stands for an object type names it. -/
theorem type?_of_resolve {schema : Schema} {o : ObjectType} (h : r.resolve schema = .object o) :
    ∃ name, schema = .named name ∧ r.type? name = some (.object o) := by
  cases schema with
  | named name =>
    refine ⟨name, rfl, ?_⟩
    cases ht : r.type? name with
    | none => simp [resolve, ht] at h
    | some t =>
      cases t with
      | variant v => simp [resolve, ht] at h
      | object p => simpa [resolve, ht] using h
  | _ => cases h

theorem type?_of_resolve_variant {schema : Schema} {v : VariantType}
    (h : r.resolve schema = .variant v) :
    ∃ name, schema = .named name ∧ r.type? name = some (.variant v) := by
  cases schema with
  | named name =>
    refine ⟨name, rfl, ?_⟩
    cases ht : r.type? name with
    | none => simp [resolve, ht] at h
    | some t =>
      cases t with
      | object o => simp [resolve, ht] at h
      | variant w => simpa [resolve, ht] using h
  | _ => cases h

theorem eq_named_of_resolve_object {schema : Schema} {o : ObjectType}
    (h : r.resolve schema = .object o) : schema = .named o.name := by
  obtain ⟨name, rfl, ht⟩ := type?_of_resolve h
  exact congrArg Schema.named (name_of_type? ht).symm

theorem eq_named_of_resolve_variant {schema : Schema} {v : VariantType}
    (h : r.resolve schema = .variant v) : schema = .named v.name := by
  obtain ⟨name, rfl, ht⟩ := type?_of_resolve_variant h
  exact congrArg Schema.named (name_of_type? ht).symm

theorem mem_types_of_resolve {schema : Schema} {o : ObjectType} (h : r.resolve schema = .object o) :
    .object o ∈ r.types := by
  obtain ⟨name, -, ht⟩ := type?_of_resolve h
  exact mem_types_of_type? ht

theorem mem_types_of_resolve_variant {schema : Schema} {v : VariantType}
    (h : r.resolve schema = .variant v) : .variant v ∈ r.types := by
  obtain ⟨name, -, ht⟩ := type?_of_resolve_variant h
  exact mem_types_of_type? ht

theorem WellKeyed.of_resolve (h : r.WellKeyed) {schema : Schema} {o : ObjectType}
    (ho : r.resolve schema = .object o) : o.WellKeyed := h.objects o (mem_types_of_resolve ho)

theorem WellKeyed.of_objectOf? (h : r.WellKeyed) {schema : Schema} {o : ObjectType}
    (ho : r.objectOf? schema = some o) : o.WellKeyed := by
  unfold objectOf? at ho
  split at ho
  · next p hp => exact Option.some.inj ho ▸ h.of_resolve hp
  · cases ho

section

variable {P : Value → Prop} {Q : ObjectType → Prop}

/-- What holds of all literals and survives the making of objects holds of what a schema is filled
in with, however deep objects are expanded. -/
theorem defaultWith_induction (hQ : ∀ schema o, r.resolve schema = .object o → Q o)
    (null : P .null) (list : P (.list []))
    (default : ∀ o v, Q o → o.defaultValue = some v → P v)
    (variant : ∀ v d, .variant v ∈ r.types → v.defaultValue = some d → P d)
    {expand : ObjectType → Value} (he : ∀ o, Q o → P (expand o)) (schema : Schema) :
    P (r.defaultWith expand schema) := by
  unfold Registry.defaultWith
  cases hs : r.resolve schema with
  | primitive kind => exact null
  | list item => exact list
  | object o =>
    have ho := hQ schema o hs
    cases hd : o.defaultValue with
    | none => simpa only [hd, Option.getD_none] using he o ho
    | some d => simpa [hd] using default o d ho hd
  | variant v =>
    cases hd : v.defaultValue with
    | none => simpa only [hd, Option.getD_none] using null
    | some d => simpa [hd] using variant v d (mem_types_of_resolve_variant hs) hd

theorem synthesize_induction (hQ : ∀ schema o, r.resolve schema = .object o → Q o)
    (null : P .null) (list : P (.list []))
    (field : ∀ o name f v, Q o → (name, f) ∈ o.fields → f.defaultValue = some v → P v)
    (default : ∀ o v, Q o → o.defaultValue = some v → P v)
    (variant : ∀ v d, .variant v ∈ r.types → v.defaultValue = some d → P d)
    (object : ∀ o expand, Q o → (∀ key v, (key, v) ∈ r.fieldsWith expand o → P v) →
      P (.object (r.fieldsWith expand o)))
    (schema : Schema) : P (r.synthesize schema) := by
  have hexpand : ∀ depth o, Q o → P (r.expand depth o) := by
    intro depth
    induction depth with
    | zero => exact fun _ _ => null
    | succ depth ih =>
      intro o ho
      rw [Registry.expand, collapse]
      split
      · exact null
      · refine object o _ ho fun key v hm => ?_
        obtain ⟨⟨name, f⟩, hf, he⟩ := List.mem_map.1 hm
        obtain ⟨rfl, rfl⟩ := Prod.mk.inj he
        cases hd : f.defaultValue with
        | none => exact defaultWith_induction hQ null list default variant ih f.schema
        | some d => simpa [hd] using field o name f d ho (List.mem_of_mem_filter hf) hd
  exact defaultWith_induction hQ null list default variant (hexpand _) schema

end

theorem distinct_fieldsWith {o : ObjectType} (ho : o.WellKeyed) (expand : ObjectType → Value) :
    (r.fieldsWith expand o).Distinct := by
  have hd := ho.distinct.filter fun f => !f.2.optional
  simpa [Entries.Distinct, Entries.keys, fieldsWith, Function.comp_def] using hd

/-- What a schema is filled in with is well keyed. -/
theorem WellKeyed.synthesize (h : r.WellKeyed) (schema : Schema) : (r.synthesize schema).Keyed :=
  synthesize_induction (fun _ _ => h.of_resolve) .null (.list (by simp))
    (fun _ name f v ho hf => ho.defaults name f v hf) (fun _ v ho => ho.default v)
    (fun v d => h.variants v d) (fun _ _ ho heach => .object (distinct_fieldsWith ho _) heach)
    schema

theorem WellKeyed.synthesizeField (h : r.WellKeyed) {o : ObjectType} (ho : o.WellKeyed)
    {name : String} {f : Field} (hf : (name, f) ∈ o.fields) : (r.synthesizeField f).Keyed := by
  unfold Registry.synthesizeField
  cases hd : f.defaultValue with
  | none => exact h.synthesize f.schema
  | some d => exact ho.defaults name f d hf hd

end Registry

end TaggedMarkup
