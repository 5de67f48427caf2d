import TaggedMarkup.Proofs.Analytics
import TaggedMarkup.Proofs.Filling.Completed
/-!
# Defaults that are spelled out

An object is filled in under the type that stands where it does: as a field or an item of this type,
as the payload of a case that it names, or as that of the only case. Whichever of the missing fields
it spells out there, at any number of places, the encoding is the same up to the order of entries.
-/
namespace TaggedMarkup

open Encoder

/-- An object, or the payload under its case. -/
def Value.wrapped : Option String → Entries Value → Value
  | none, fields => .object fields
  | some case, fields => .object [(case, .object fields)]

theorem Value.asString?_wrapped (case : Option String) (fields : Entries Value) :
    (wrapped case fields).asString? = none := by
  cases case <;> rfl

theorem Value.Keyed.of_wrapped {case : Option String} {fields : Entries Value}
    (h : (wrapped case fields).Keyed) : (Value.object fields).Keyed := by
  cases case with
  | none => exact h
  | some case => exact h.of_mem_fields (List.mem_singleton_self _)

/-- Fields are encoded under a type: as an object of it, as the payload of a case that an object
names, or as that of the only case. -/
inductive Registry.Governs (r : Registry) (schema : Option Schema) (o : ObjectType) :
    Option String → Entries Value → Prop
  | own {fields : Entries Value} (ht : schema.map r.resolve = some (.object o)) :
      Governs r schema o none fields
  | payload {v : VariantType} {case : String} {s : Schema} {fields : Entries Value}
      (ht : schema.map r.resolve = some (.variant v)) (hinline : v.isInline = false)
      (hcase : v.case? case = some s) (ho : r.objectOf? s = some o) :
      Governs r schema o (some case) fields
  | implied {v : VariantType} {case : String} {s : Schema} {fields : Entries Value}
      (ht : schema.map r.resolve = some (.variant v)) (hne : fields ≠ [])
      (hnot : explicitCase? v fields = none) (hcase : v.soleCase? = some (case, s))
      (ho : r.objectOf? s = some o) : Governs r schema o none fields

/-- The second value is the first with some defaults spelled out, in any objects that are encoded
under a type. -/
inductive Value.SpellsOut (r : Registry) : Option Schema → Value → Value → Prop
  | refl (schema : Option Schema) (v : Value) : SpellsOut r schema v v
  | list {schema item : Option Schema} {xs ys : List Value}
      (hitem : itemType? (schema.map r.resolve) = some item) (length : xs.length = ys.length)
      (each : ∀ v w, (v, w) ∈ xs.zip ys → SpellsOut r item v w) :
      SpellsOut r schema (.list xs) (.list ys)
  | object {schema : Option Schema} {o : ObjectType} {case : Option String}
      {fields own more : Entries Value} (governs : r.Governs schema o case fields)
      (keys : own.keys = fields.keys)
      (each : ∀ key v w, (key, v) ∈ fields → (key, w) ∈ own →
        SpellsOut r ((o.field? key).map Field.schema) v w)
      (distinct : more.Distinct)
      (missing : ∀ key v, (key, v) ∈ more → key ∉ fields.keys ∧ r.default? o key = some v) :
      SpellsOut r schema (wrapped case fields) (wrapped case (own ++ more))

namespace Registry

variable {r : Registry} {schema : Option Schema} {o : ObjectType} {case : Option String}
  {fields own more : Entries Value}

theorem Governs.mem_types (h : r.Governs schema o case fields) : .object o ∈ r.types := by
  cases h with
  | own ht =>
    obtain ⟨s, -, hs⟩ := Option.map_eq_some_iff.1 ht
    exact mem_types_of_resolve hs
  | payload _ _ _ ho => exact mem_types_of_objectOf? ho
  | implied _ _ _ _ ho => exact mem_types_of_objectOf? ho

theorem Governs.append (h : r.Governs schema o case fields) (hkeys : own.keys = fields.keys) :
    r.Governs schema o case (own ++ more) := by
  cases h with
  | own ht => exact .own ht
  | payload ht hinline hcase ho => exact .payload ht hinline hcase ho
  | implied ht hne hnot hcase ho =>
    -- More fields never make the payload of the only case look like an object that names one.
    refine .implied ht (fun hnil => hne ?_)
      (explicitCase?_eq_none_of_single (fun case w happend => ?_) hnot) hcase ho
    · rw [(List.append_eq_nil_iff.1 hnil).1] at hkeys
      exact List.map_eq_nil_iff.1 hkeys.symm
    · match fields, own with
      | [(key, v)], [(key', v')] =>
        obtain rfl := List.singleton_inj.1 hkeys
        obtain ⟨rfl, -⟩ := Prod.mk.inj (List.cons.inj happend).1
        exact ⟨v, rfl⟩
      | _ :: _ :: _, _ :: _ :: _ => cases (List.cons.inj happend).2

end Registry

namespace Encoder

/-- The two values are encoded under the schema as the same tree up to order, or neither is. -/
def Agree (e : Encoder) (schema : Option Schema) (v w : Value) : Prop :=
  e.Leads schema v w ∧ e.Leads schema w v

/-- Fields of one type that agree once they are completed. -/
structure AgreeUnder (e : Encoder) (o : ObjectType) (es fs : Entries Value) : Prop where
  distinct_left : es.Distinct
  distinct_right : fs.Distinct
  case : untypedCase? es (some o) = untypedCase? fs (some o)
  lookup : ∀ key, Option.Rel (e.Agree ((o.field? key).map Field.schema))
    ((e.registry.completed o es).get? key) ((e.registry.completed o fs).get? key)

variable {e : Encoder} {r : Registry} {c : Convention} {schema : Option Schema} {o : ObjectType}
  {es fs : Entries Value} {path : Path}

theorem Agree.refl (e : Encoder) (schema : Option Schema) (v : Value) : e.Agree schema v v :=
  ⟨.refl e schema v, .refl e schema v⟩

theorem Agree.symm {v w : Value} (h : e.Agree schema v w) : e.Agree schema w v := ⟨h.2, h.1⟩

theorem AgreeUnder.symm (h : e.AgreeUnder o es fs) : e.AgreeUnder o fs es where
  distinct_left := h.distinct_right
  distinct_right := h.distinct_left
  case := h.case.symm
  lookup := fun key => by
    match (e.registry.completed o es).get? key, (e.registry.completed o fs).get? key,
      h.lookup key with
    | _, _, .none => exact .none
    | _, _, .some hvw => exact .some hvw.symm

/-! ## Fields that agree -/

section

variable (hr : r.WellKeyed) (ho : .object o ∈ r.types)
  (h : (ofRegistry r c).AgreeUnder o es fs)

include hr ho h

/-- Fields that agree are laid out alike. -/
theorem AgreeUnder.exists_lays {skipCase : Bool}
    (hcase : skipCase = true → o.field? Marker.untypedCase = none) {entries : Entries Tree}
    (hl : (ofRegistry r c).Lays (some o) path skipCase es entries) :
    ∃ entries', (ofRegistry r c).Lays (some o) path skipCase fs entries' ∧
      Entries.Reordered Tree.Reordered entries entries' := by
  have hwell : o.WellKeyed := hr.objects o ho
  have hd := Registry.distinct_completed (r := r) hwell h.distinct_left
  have hd' := Registry.distinct_completed (r := r) hwell h.distinct_right
  have hreordered : Entries.Reordered (fun _ _ => True) (r.completed o es) (r.completed o fs) := by
    refine .of_lookup hd hd' fun key => ?_
    match (r.completed o es).get? key, (r.completed o fs).get? key, h.lookup key with
    | _, _, .none => exact .none
    | _, _, .some _ => exact .some trivial
  have heach : ∀ key v w, (key, v) ∈ r.completed o es → (key, w) ∈ r.completed o fs →
      (ofRegistry r c).Leads ((declared? (some o) key).map Field.schema) v w := by
    intro key v w hv hw
    have hrel : Option.Rel _ ((r.completed o es).get? key) ((r.completed o fs).get? key) :=
      h.lookup key
    rw [(Entries.get?_eq_some_iff hd).2 hv, (Entries.get?_eq_some_iff hd').2 hw] at hrel
    cases hrel with
    | some hvw => exact hvw.1
  rw [lays_iff_encodeFields_completed hr ho hcase] at hl
  obtain ⟨entries', hentries', hrel⟩ := exists_encodeFields_of_leads hreordered heach hl
  exact ⟨entries', (lays_iff_encodeFields_completed hr ho hcase).2 hentries', hrel⟩

/-- Fields that agree become the same element, whether or not it may collapse. -/
theorem AgreeUnder.exists_body {collapse : Bool} {t : Tree}
    (ht : (ofRegistry r c).body (some o) collapse es path = .ok t) :
    ∃ u, (ofRegistry r c).body (some o) collapse fs path = .ok u ∧ t.Reordered u := by
  have hwell : ∀ t, some o = some t → t.WellKeyed := by
    rintro _ ⟨⟩
    exact hr.objects o ho
  unfold body at ht ⊢
  obtain ⟨entries, hl, rfl⟩ := (finish_eq_ok_iff hwell).1 ht
  rw [h.case] at hl
  have hcase : (untypedCase? fs (some o)).isSome = true → o.field? Marker.untypedCase = none := by
    intro hsome
    obtain ⟨case, hcase⟩ := Option.isSome_iff_exists.1 hsome
    exact (untypedCase?_eq_some hcase).2
  obtain ⟨entries', hl', hrel⟩ := h.exists_lays hr ho hcase hl
  refine ⟨_, (finish_eq_ok_iff hwell).2 ⟨entries', hl', rfl⟩, ?_⟩
  rw [h.case]
  exact finishObject_of_reordered hrel _ _ _

/-- Objects under one type whose fields agree are encoded alike. -/
theorem AgreeUnder.leads {case : Option String} (hes : r.Governs schema o case es)
    (hfs : r.Governs schema o case fs) :
    (ofRegistry r c).Leads schema (.wrapped case es) (.wrapped case fs) := by
  have hskip : false = true → o.field? Marker.untypedCase = none := by simp
  refine ⟨by cases case <;> rfl, fun verbatim path t ht => ?_⟩
  cases hes with
  | own hs =>
    have hplain : plainType? (schema.map r.resolve) = some (some o) := congrArg plainType? hs
    rw [Value.wrapped, encode_object_plain (e := ofRegistry r c) hplain] at ht ⊢
    exact h.exists_body hr ho ht
  | @payload _ _ s _ hs hinline hcase hobject =>
    have hobject : (ofRegistry r c).registry.objectOf? s = some o := hobject
    obtain ⟨entries, hl, rfl⟩ :=
      (encode_payload_eq_ok_iff (e := ofRegistry r c) hr hs hinline hcase).1 ht
    obtain ⟨entries', hl', hrel⟩ := h.exists_lays hr ho hskip (hobject ▸ hl)
    exact ⟨_, (encode_payload_eq_ok_iff (e := ofRegistry r c) hr hs hinline hcase).2
      ⟨entries', hobject ▸ hl', rfl⟩, finishCase_of_reordered hrel _⟩
  | @implied _ _ s _ hs hne hnot hsole hobject =>
    have hobject : (ofRegistry r c).registry.objectOf? s = some o := hobject
    cases hfs with
    | own hs' => cases hs.symm.trans hs'
    | implied hs' hne' hnot' _ _ =>
      cases hs.symm.trans hs'
      obtain ⟨entries, hl, rfl⟩ :=
        (encode_sole_eq_ok_iff (e := ofRegistry r c) hr hs hne hnot hsole).1 ht
      obtain ⟨entries', hl', hrel⟩ := h.exists_lays hr ho hskip (hobject ▸ hl)
      exact ⟨_, (encode_sole_eq_ok_iff (e := ofRegistry r c) hr hs hne' hnot' hsole).2
        ⟨entries', hobject ▸ hl', rfl⟩, finishCase_of_reordered hrel _⟩

/-- As a whole definition, one value leads to the other. -/
def LeadsRoot (e : Encoder) (schema : Schema) (v w : Value) : Prop :=
  ∀ t, e.encodeRoot v schema = .ok t → ∃ u, e.encodeRoot w schema = .ok u ∧ t.Reordered u

/-- Whole definitions under one type whose fields agree are encoded alike. -/
theorem AgreeUnder.leadsRoot {case : Option String} {schema : Schema}
    (hes : r.Governs (some schema) o case es) (hfs : r.Governs (some schema) o case fs) :
    (ofRegistry r c).LeadsRoot schema (.wrapped case es) (.wrapped case fs) := by
  intro t ht
  obtain ⟨gs, hgs⟩ : ∃ gs, Value.wrapped case es = .object gs := by cases case <;> exact ⟨_, rfl⟩
  obtain ⟨hs, hhs⟩ : ∃ hs, Value.wrapped case fs = .object hs := by cases case <;> exact ⟨_, rfl⟩
  rcases (ofRegistry r c).encodeRoot_object schema with ⟨o', hplain, hbody⟩ | ⟨-, hencode⟩
  · have hresolved : ∀ t, some (r.resolve schema) = some t → plainType? (some t) = some o' :=
      fun t ht => ht ▸ hplain
    cases hes with
    | own hown =>
      obtain rfl := Option.some.inj (hresolved _ hown)
      rw [Value.wrapped, hbody] at ht ⊢
      exact h.exists_body hr ho ht
    | payload hvariant _ _ _ => cases hresolved _ hvariant
    | implied hvariant _ _ _ _ => cases hresolved _ hvariant
  · have hleads := h.leads hr ho hes hfs
    rw [hgs, hencode, ← hgs] at ht
    rw [hhs, hencode, ← hhs]
    exact hleads.2 _ _ t ht

end

/-! ## Defaults among the fields -/

theorem lookups_of_keys_eq {own : Entries Value} (keys : own.keys = es.keys) (key : String) :
    (∃ v w, es.get? key = some v ∧ own.get? key = some w) ∨
      key ∉ es.keys ∧ es.get? key = none ∧ own.get? key = none := by
  by_cases hk : key ∈ es.keys
  · have hv : es.get? key ≠ none := fun hnone => Entries.get?_eq_none_iff.1 hnone hk
    have hw : own.get? key ≠ none := fun hnone => Entries.get?_eq_none_iff.1 hnone (keys ▸ hk)
    obtain ⟨v, hv⟩ := Option.ne_none_iff_exists'.1 hv
    obtain ⟨w, hw⟩ := Option.ne_none_iff_exists'.1 hw
    exact .inl ⟨v, w, hv, hw⟩
  · exact .inr ⟨hk, Entries.get?_eq_none_iff.2 hk, Entries.get?_eq_none_iff.2 (keys ▸ hk)⟩

/-- Fields agree with those that have some defaults spelled out behind them. -/
theorem agreeUnder_append (ho : o.WellKeyed) (hd : es.Distinct) {own more : Entries Value}
    (keys : own.keys = es.keys)
    (texts : ∀ key v w, (key, v) ∈ es → (key, w) ∈ own → v.asString? = w.asString?)
    (each : ∀ key v w, (key, v) ∈ es → (key, w) ∈ own →
      e.Agree ((o.field? key).map Field.schema) v w)
    (distinct : more.Distinct)
    (missing : ∀ key v, (key, v) ∈ more →
      key ∉ es.keys ∧ e.registry.default? o key = some v) : e.AgreeUnder o es (own ++ more) where
  distinct_left := hd
  distinct_right := by
    rw [Entries.Distinct, Entries.keys_append, keys, List.nodup_append]
    refine ⟨hd, distinct, ?_⟩
    rintro key hk _ hmore rfl
    obtain ⟨v, hv⟩ := Entries.exists_of_mem_keys hmore
    exact (missing key v hv).1 hk
  case := by
    unfold untypedCase?
    split
    · rfl
    · next hfree =>
      rw [Entries.get?_append]
      rcases lookups_of_keys_eq keys Marker.untypedCase with ⟨v, w, hv, hw⟩ | ⟨-, hv, hw⟩
      · rw [hv, hw]
        exact texts _ v w (Entries.mem_of_get?_eq_some hv) (Entries.mem_of_get?_eq_some hw)
      · -- A default has a declared key, so it is never read as the case of an untyped object.
        have hmore : more.get? Marker.untypedCase = none := by
          rw [Option.eq_none_iff_forall_not_mem]
          intro v hv
          obtain ⟨f, hf, -⟩ := Registry.default?_eq_some_iff.1
            (missing _ v (Entries.mem_of_get?_eq_some hv)).2
          exact hfree (by simp [hf])
        rw [hv, hw, hmore]
        rfl
  lookup := fun key => by
    rw [Registry.get?_completed ho, Registry.get?_completed ho, Entries.get?_append]
    rcases lookups_of_keys_eq keys key with ⟨v, w, hv, hw⟩ | ⟨-, hv, hw⟩
    · rw [hv, hw]
      exact .some (each key v w (Entries.mem_of_get?_eq_some hv) (Entries.mem_of_get?_eq_some hw))
    · rw [hv, hw, Option.none_or, Option.none_or]
      cases hmore : more.get? key with
      | some v =>
        rw [(missing key v (Entries.mem_of_get?_eq_some hmore)).2]
        exact .some (.refl e _ v)
      | none =>
        rw [Option.none_or]
        cases e.registry.default? o key with
        | none => exact .none
        | some v => exact .some (.refl e _ v)

end Encoder

namespace Value.SpellsOut

variable {r : Registry} {c : Convention} {schema : Option Schema} {v w : Value}

theorem asString?_eq (h : v.SpellsOut r schema w) : v.asString? = w.asString? := by
  cases h with
  | refl => rfl
  | list => rfl
  | object => rw [asString?_wrapped, asString?_wrapped]

/-- A value agrees with one that has defaults spelled out. -/
theorem agree (hr : r.WellKeyed) (h : v.SpellsOut r schema w) (hk : v.Keyed) :
    (ofRegistry r c).Agree schema v w := by
  induction h with
  | refl schema v => exact .refl _ schema v
  | @list schema item xs ys hitem length _ ih =>
    have hitems : ∀ v w, (v, w) ∈ xs.zip ys → (ofRegistry r c).Agree item v w :=
      fun v w hm => ih v w hm (hk.of_mem_items (List.of_mem_zip hm).1)
    have hleft : List.Forall₂ ((ofRegistry r c).Agree item) xs ys :=
      List.forall₂_iff_zip.2 ⟨length, fun hm => hitems _ _ hm⟩
    have hsame : ∀ item', itemType? (schema.map r.resolve) = some item' → item' = item :=
      fun item' hitem' => Option.some.inj (hitem'.symm.trans hitem)
    refine ⟨leads_list fun item' hitem' => ?_, leads_list fun item' hitem' => ?_⟩
    · rw [hsame item' hitem']
      exact hleft.imp fun _ _ hvw => hvw.1
    · rw [hsame item' hitem']
      exact hleft.flip.imp fun _ _ hvw => hvw.2
  | @object schema o case fields own more governs keys each distinct missing ih =>
    have hagree : (ofRegistry r c).AgreeUnder o fields (own ++ more) :=
      agreeUnder_append (hr.objects o governs.mem_types) hk.of_wrapped.distinct keys
        (fun key v w hv hw => (each key v w hv hw).asString?_eq)
        (fun key v w hv hw => ih key v w hv hw (hk.of_wrapped.of_mem_fields hv)) distinct missing
    have hafter : r.Governs _ o case (own ++ more) := governs.append keys
    exact ⟨hagree.leads hr governs.mem_types governs hafter,
      hagree.symm.leads hr governs.mem_types hafter governs⟩

/-- A whole definition agrees with one that has defaults spelled out. -/
theorem leadsRoot (hr : r.WellKeyed) {schema : Schema} (h : v.SpellsOut r (some schema) w)
    (hk : v.Keyed) :
    (ofRegistry r c).LeadsRoot schema v w ∧ (ofRegistry r c).LeadsRoot schema w v := by
  have hagree := h.agree (c := c) hr hk
  cases h with
  | refl => exact ⟨fun t ht => ⟨t, ht, .refl t⟩, fun t ht => ⟨t, ht, .refl t⟩⟩
  | list => exact ⟨hagree.1.2 false .root, hagree.2.2 false .root⟩
  | @object _ o case fields own more governs keys each distinct missing =>
    have hunder : (ofRegistry r c).AgreeUnder o fields (own ++ more) :=
      agreeUnder_append (hr.objects o governs.mem_types) hk.of_wrapped.distinct keys
        (fun key v w hv hw => (each key v w hv hw).asString?_eq)
        (fun key v w hv hw => (each key v w hv hw).agree hr (hk.of_wrapped.of_mem_fields hv))
        distinct missing
    have hafter : r.Governs _ o case (own ++ more) := governs.append keys
    exact ⟨hunder.leadsRoot hr governs.mem_types governs hafter,
      hunder.symm.leadsRoot hr governs.mem_types hafter governs⟩

end Value.SpellsOut

namespace Profile

/-- Spelling out defaults changes neither whether a value is encoded nor, up to order, as what. -/
theorem encode_spelledOut {p : Profile} {kind : String} {v w : Value} (hr : p.registry.WellKeyed)
    (hv : v.Keyed) (h : ∀ schema, p.registry.schemaFor? kind = some schema →
      v.SpellsOut p.registry (some schema) w) :
    ((∃ t, p.encodeTree kind v = .ok t) ↔ ∃ u, p.encodeTree kind w = .ok u) ∧
      ∀ t u, p.encodeTree kind v = .ok t → p.encodeTree kind w = .ok u → t.Reordered u := by
  have hleads : ∀ v w, (∀ schema, p.registry.schemaFor? kind = some schema →
      (ofRegistry p.registry p.convention).LeadsRoot schema v w) →
      ∀ t, p.encodeTree kind v = .ok t → ∃ u, p.encodeTree kind w = .ok u ∧ t.Reordered u := by
    intro v w hroot document hdocument
    obtain ⟨schema, t, hschema, ht, rfl⟩ := encodeTree_eq_ok_iff.1 hdocument
    obtain ⟨u, hu, htu⟩ := hroot schema hschema t ht
    exact ⟨_, encodeTree_eq_ok_iff.2 ⟨schema, u, hschema, hu, rfl⟩, .of_entries (.singleton htu)⟩
  have hto := hleads v w fun schema hschema => ((h schema hschema).leadsRoot hr hv).1
  have hfrom := hleads w v fun schema hschema => ((h schema hschema).leadsRoot hr hv).2
  refine ⟨⟨fun ⟨t, ht⟩ => ?_, fun ⟨u, hu⟩ => ?_⟩, fun t u ht hu => ?_⟩
  · obtain ⟨u, hu, -⟩ := hto t ht
    exact ⟨u, hu⟩
  · obtain ⟨t, ht, -⟩ := hfrom u hu
    exact ⟨t, ht⟩
  · obtain ⟨u', hu', htu⟩ := hto t ht
    obtain rfl := Except.ok.inj (hu.symm.trans hu')
    exact htu

/-- A dataset whose criterion says next to nothing. -/
def briefDataset : Value :=
  .object [("criteria", .object [("condition", .object [("operator", .object [])])])]

/-- The same dataset, with defaults at the root, in the case of its criterion and further inside. -/
def spelledDataset : Value :=
  .object [
    ("criteria", .object [("condition", .object [
      ("operator", .object [("code", .string "AND")]),
      ("children", .list [])])]),
    ("audience", .object [("AudienceItems", .list []), ("isPublic", .bool false)])]

theorem briefDataset_spellsOut : briefDataset.SpellsOut Analytics.registry
    (some (.named "dataSet")) spelledDataset := by
  have hoperator : (Value.wrapped none []).SpellsOut Analytics.registry (some (.named "operator"))
      (.wrapped none ([] ++ [("code", .string "AND")])) := by
    refine .object (.own rfl) rfl (by simp) (List.nodup_singleton _) fun key v hm => ?_
    obtain ⟨rfl, rfl⟩ := Prod.mk.inj (List.mem_singleton.1 hm)
    exact ⟨by simp [Entries.keys], rfl⟩
  have hcriterion : (Value.wrapped (some "condition") [("operator", .object [])]).SpellsOut
      Analytics.registry (some (.named "criterion")) (.wrapped (some "condition")
        ([("operator", .object [("code", .string "AND")])] ++ [("children", .list [])])) := by
    refine .object (.payload rfl rfl rfl rfl) rfl (fun key v w hv hw => ?_)
      (List.nodup_singleton _) fun key v hm => ?_
    · obtain ⟨rfl, rfl⟩ := Prod.mk.inj (List.mem_singleton.1 hv)
      obtain ⟨-, rfl⟩ := Prod.mk.inj (List.mem_singleton.1 hw)
      exact hoperator
    · obtain ⟨rfl, rfl⟩ := Prod.mk.inj (List.mem_singleton.1 hm)
      exact ⟨by decide, rfl⟩
  have hdataset : (Value.wrapped none [("criteria", .wrapped (some "condition")
      [("operator", .object [])])]).SpellsOut Analytics.registry (some (.named "dataSet"))
      (.wrapped none ([("criteria", .wrapped (some "condition")
        ([("operator", .object [("code", .string "AND")])] ++ [("children", .list [])]))] ++
        [("audience", .object [("AudienceItems", .list []), ("isPublic", .bool false)])])) := by
    refine .object (.own rfl) rfl (fun key v w hv hw => ?_) (List.nodup_singleton _)
      fun key v hm => ?_
    · obtain ⟨rfl, rfl⟩ := Prod.mk.inj (List.mem_singleton.1 hv)
      obtain ⟨-, rfl⟩ := Prod.mk.inj (List.mem_singleton.1 hw)
      exact hcriterion
    · obtain ⟨rfl, rfl⟩ := Prod.mk.inj (List.mem_singleton.1 hm)
      exact ⟨by decide, rfl⟩
  exact hdataset

theorem encode_spelledOut_criterion : Analytics.registry.WellKeyed ∧ briefDataset.Keyed ∧
    briefDataset.SpellsOut Analytics.registry (some (.named "dataSet")) spelledDataset ∧
    ∃ t u, Profile.encodeTree {} "dataset" briefDataset = .ok t ∧
      Profile.encodeTree {} "dataset" spelledDataset = .ok u ∧ t.Reordered u := by
  have hkeyed : briefDataset.Keyed := Value.keyed_of_isKeyed _ (by decide)
  obtain ⟨hiff, hreordered⟩ := @encode_spelledOut {} "dataset" _ _
    Analytics.registry_wellKeyed hkeyed fun schema hschema =>
      Option.some.inj hschema ▸ briefDataset_spellsOut
  have hencoded : (Profile.encodeTree {} "dataset" briefDataset).toOption.isSome = true := by
    decide +kernel
  obtain ⟨t, ht⟩ := Option.isSome_iff_exists.1 hencoded
  rw [← eq_ok_iff_toOption] at ht
  obtain ⟨u, hu⟩ := hiff.1 ⟨t, ht⟩
  exact ⟨Analytics.registry_wellKeyed, hkeyed, briefDataset_spellsOut, t, u, ht, hu,
    hreordered t u ht hu⟩

end Profile

end TaggedMarkup
