import TaggedMarkup.Proofs.Inside
import TaggedMarkup.Proofs.Registry.WellFormed
/-!
# Filling in ends, and leaves no hollow objects

`Filled` says what the fields of a type are filled in with, with no bound on the depth: the fields
of a type are filled in once those of each type that it unfolds are. In a registry that is accepted
each type has exactly one such outcome. It is the one that `synthesizeFields` gives, because the
names of the types along a chain of unfoldings differ and there are no more of them than the depth
that is allowed. Where the check reports a cycle, no type on it is ever filled in.
-/
namespace TaggedMarkup

open Relation

/-! ## Values without hollow objects -/

namespace Value

/-- An object with fields, none of which says anything. -/
def isHollow : Value → Bool
  | object fields => !fields.isEmpty && fields.all fun f => f.2.isPlaceholder
  | _ => false

/-- No hollow object stands in the value, at any depth. -/
def Compact (v : Value) : Prop := ∀ w : Value, w.Inside v → w.isHollow = false

theorem compact_null : Value.null.Compact := by
  rintro w ⟨⟩
  rfl

theorem compact_list_iff {items : List Value} :
    (Value.list items).Compact ↔ ∀ v ∈ items, v.Compact := by
  constructor
  · exact fun h v hv w hw => h w (.item hv hw)
  · intro h w hw
    cases hw with
    | self => rfl
    | item hv hw => exact h _ hv w hw

theorem compact_object_iff {fields : Entries Value} : (Value.object fields).Compact ↔
    (Value.object fields).isHollow = false ∧ ∀ key v, (key, v) ∈ fields → v.Compact := by
  constructor
  · exact fun h => ⟨h _ .self, fun key v hv w hw => h w (.field hv hw)⟩
  · rintro ⟨hself, h⟩ w hw
    cases hw with
    | self => exact hself
    | field hv hw => exact h _ _ hv w hw

mutual

def isCompact : Value → Bool
  | list items => areCompact items
  | object fields => !(object fields).isHollow && haveCompact fields
  | _ => true

def areCompact : List Value → Bool
  | [] => true
  | v :: rest => v.isCompact && areCompact rest

def haveCompact : List (String × Value) → Bool
  | [] => true
  | (_, v) :: rest => v.isCompact && haveCompact rest

end

mutual

theorem compact_of_isCompact (v : Value) (h : v.isCompact = true) : v.Compact := by
  cases v with
  | list items => exact compact_list_iff.2 (compact_of_areCompact items h)
  | object fields =>
    obtain ⟨hself, hfields⟩ := Bool.and_eq_true_iff.1 h
    exact compact_object_iff.2 ⟨by simpa using hself, compact_of_haveCompact fields hfields⟩
  | _ =>
    rintro w ⟨⟩
    rfl

theorem compact_of_areCompact (items : List Value) (h : areCompact items = true) :
    ∀ v ∈ items, v.Compact := by
  cases items with
  | nil => simp
  | cons v rest =>
    obtain ⟨hv, hrest⟩ := Bool.and_eq_true_iff.1 h
    exact List.forall_mem_cons.2 ⟨compact_of_isCompact v hv, compact_of_areCompact rest hrest⟩

theorem compact_of_haveCompact (fields : List (String × Value)) (h : haveCompact fields = true) :
    ∀ key v, (key, v) ∈ fields → v.Compact := by
  cases fields with
  | nil => simp
  | cons f rest =>
    obtain ⟨key, v⟩ := f
    obtain ⟨hv, hrest⟩ := Bool.and_eq_true_iff.1 h
    exact Entries.forall_mem_cons.2 ⟨compact_of_isCompact v hv, compact_of_haveCompact rest hrest⟩

end

end Value

namespace Registry

variable {r : Registry} {o p : ObjectType}

/-! ## Filling in without a bound -/

/-- Filling in the fields of the first type goes on to the fields of the second. -/
inductive Unfolds (r : Registry) (o p : ObjectType) : Prop
  | field {name : String} {f : Field} (field : (name, f) ∈ o.fields) (required : f.optional = false)
      (bare : f.defaultValue = none) (schema : r.resolve f.schema = .object p)
      (unfilled : p.defaultValue = none)

/-- The fields of a type are filled in with these values, those of each type that it unfolds having
been filled in first. -/
inductive Filled (r : Registry) : ObjectType → Entries Value → Prop
  | intro {o : ObjectType} (inner : ObjectType → Entries Value)
      (each : ∀ p, r.Unfolds o p → Filled r p (inner p)) :
      Filled r o (r.fieldsWith (fun p => collapse (inner p)) o)

/-- A schema is filled in with this value. -/
inductive SchemaFilled (r : Registry) (schema : Schema) : Value → Prop
  | intro (inner : ObjectType → Entries Value) (each : ∀ p, r.resolve schema = .object p →
      p.defaultValue = none → r.Filled p (inner p)) :
      SchemaFilled r schema (r.defaultWith (fun p => collapse (inner p)) schema)

/-- A field is filled in with this value. -/
inductive FieldFilled (r : Registry) (f : Field) : Value → Prop
  | literal {v : Value} (given : f.defaultValue = some v) : FieldFilled r f v
  | schema {v : Value} (bare : f.defaultValue = none) (filled : r.SchemaFilled f.schema v) :
      FieldFilled r f v

theorem defaultWith_congr {expand other : ObjectType → Value} {schema : Schema}
    (h : ∀ p, r.resolve schema = .object p → p.defaultValue = none → expand p = other p) :
    r.defaultWith expand schema = r.defaultWith other schema := by
  unfold defaultWith
  split
  · rfl
  · rfl
  · next p hp =>
    cases hd : p.defaultValue with
    | none => simp [h p hp hd]
    | some d => rfl
  · rfl

theorem fieldsWith_congr {expand other : ObjectType → Value}
    (h : ∀ p, r.Unfolds o p → expand p = other p) :
    r.fieldsWith expand o = r.fieldsWith other o := by
  refine List.map_congr_left fun ⟨name, f⟩ hf => ?_
  obtain ⟨hmem, hrequired⟩ := List.mem_filter.1 hf
  cases hd : f.defaultValue with
  | some d => rfl
  | none =>
    refine congrArg (Prod.mk name) (defaultWith_congr fun p hp hunfilled => h p ?_)
    exact .field hmem (by simpa using hrequired) hd hp hunfilled

/-- There is at most one outcome. -/
theorem Filled.unique {a b : Entries Value} (ha : r.Filled o a) (hb : r.Filled o b) : a = b := by
  induction ha generalizing b with
  | intro inner each ih =>
    cases hb with
    | intro other eachOther =>
      exact fieldsWith_congr fun p hp => congrArg collapse (ih p hp (eachOther p hp))

theorem SchemaFilled.unique {schema : Schema} {v w : Value} (hv : r.SchemaFilled schema v)
    (hw : r.SchemaFilled schema w) : v = w := by
  obtain ⟨inner, each⟩ := hv
  obtain ⟨other, eachOther⟩ := hw
  exact defaultWith_congr fun p hp hunfilled =>
    congrArg collapse ((each p hp hunfilled).unique (eachOther p hp hunfilled))

theorem FieldFilled.unique {f : Field} {v w : Value} (hv : r.FieldFilled f v)
    (hw : r.FieldFilled f w) : v = w := by
  cases hv with
  | literal hv =>
    cases hw with
    | literal hw => exact Option.some.inj (hv.symm.trans hw)
    | schema hbare => exact absurd (hv.symm.trans hbare) (Option.some_ne_none v)
  | schema hbare hv =>
    cases hw with
    | literal hw => exact absurd (hw.symm.trans hbare) (Option.some_ne_none w)
    | schema _ hw => exact hv.unique hw

/-- A type that has an outcome is the start of no endless chain. -/
theorem Filled.acc {fields : Entries Value} (h : r.Filled o fields) :
    Acc (fun p o => r.Unfolds o p) o := by
  induction h with
  | intro inner each ih => exact .intro _ ih

theorem Filled.not_transGen {fields : Entries Value} (h : r.Filled o fields) :
    ¬ TransGen r.Unfolds o o := by
  induction h with
  | intro inner each ih =>
    intro hcycle
    obtain ⟨p, hstep, hback⟩ := TransGen.head'_iff.1 hcycle
    exact ih p hstep (TransGen.tail' hback hstep)

/-! ## The depth that is allowed is enough -/

theorem fillsWith_of_unfolds (hr : r.WellFormed) (ho : .object o ∈ r.types)
    (h : r.Unfolds o p) : r.FillsWith o.name p.name := by
  obtain ⟨hf, hrequired, hbare, hschema, hunfilled⟩ := h
  obtain ⟨hp, hschema⟩ := (resolve_eq_object_iff hr.distinct).1 hschema
  exact .field ho hf hrequired hbare hschema hp hunfilled

theorem mem_types_of_unfolds (hr : r.WellFormed) (h : r.Unfolds o p) : .object p ∈ r.types := by
  obtain ⟨-, -, -, hschema, -⟩ := h
  exact ((resolve_eq_object_iff hr.distinct).1 hschema).1

/-- A list of distinct types is no longer than the list of all. -/
theorem length_le_of_subset_typeNames {trail : List String} (hnodup : trail.Nodup)
    (hsub : trail ⊆ r.typeNames) : trail.length ≤ r.types.length := by
  have hle : trail.length ≤ r.typeNames.length := (List.subperm_of_subset hnodup hsub).length_le
  rwa [typeNames, List.length_map] at hle

/-- The types that have been passed on the way to a type, all different. -/
structure Trail (r : Registry) (o : ObjectType) (names : List String) : Prop where
  distinct : names.Nodup
  registered : names ⊆ r.typeNames
  leads : ∀ p, r.Unfolds o p → ∀ name ∈ names, TransGen r.FillsWith name p.name

theorem Trail.cons {names : List String} (hr : r.WellFormed) (h : r.Trail o names)
    (hp : r.Unfolds o p) : r.Trail p (p.name :: names) := by
  have hmem : .object p ∈ r.types := mem_types_of_unfolds hr hp
  have hnew : p.name ∉ names := fun hold => hr.bounded p.name (h.leads p hp p.name hold)
  refine ⟨List.nodup_cons.2 ⟨hnew, h.distinct⟩, List.cons_subset.2 ⟨?_, h.registered⟩, ?_⟩
  · exact mem_typeNames_iff.2 ⟨_, hmem, rfl⟩
  · intro q hq name hname
    have hstep : r.FillsWith p.name q.name := fillsWith_of_unfolds hr hmem hq
    rcases List.mem_cons.1 hname with rfl | hname
    · exact .single hstep
    · exact (h.leads p hp name hname).tail hstep

/-- A type is filled in within any depth that makes up for the types that are not on its trail. -/
theorem filled_of_trail (hr : r.WellFormed) {depth : Nat} {names : List String}
    (h : r.Trail o names) (hdepth : r.types.length ≤ names.length + depth) :
    r.Filled o (r.fieldsWith (r.expand depth) o) := by
  induction depth generalizing o names with
  | zero =>
    -- All types are on the trail, so there is none to go on to.
    have hnone : ∀ p, ¬ r.Unfolds o p := fun p hp => by
      have hnext : r.Trail p (p.name :: names) := h.cons hr hp
      have hle := length_le_of_subset_typeNames hnext.distinct hnext.registered
      simp only [List.length_cons] at hle
      omega
    have heq : r.fieldsWith (r.expand 0) o = r.fieldsWith (fun _ => collapse []) o :=
      fieldsWith_congr fun p hp => absurd hp (hnone p)
    rw [heq]
    exact .intro (fun _ => []) fun p hp => absurd hp (hnone p)
  | succ depth ih =>
    refine .intro (r.fieldsWith (r.expand depth)) fun p hp => ih (h.cons hr hp) ?_
    simp only [List.length_cons]
    omega

theorem filled_synthesizeFields (hr : r.WellFormed) (o : ObjectType) :
    r.Filled o (r.synthesizeFields o) :=
  filled_of_trail hr ⟨List.nodup_nil, List.nil_subset _, by simp⟩ (by simp)

/-- One level less than the depth that is allowed would do for a registered type. -/
theorem expand_eq_collapse (hr : r.WellFormed) (hp : .object p ∈ r.types) :
    r.expand r.types.length p = collapse (r.synthesizeFields p) := by
  have hpos : 0 < r.types.length := List.length_pos_of_mem hp
  obtain ⟨depth, hdepth⟩ := Nat.exists_eq_add_of_lt hpos
  have htrail : r.Trail p [p.name] := by
    refine ⟨List.nodup_singleton _, ?_, ?_⟩
    · exact List.cons_subset.2 ⟨mem_typeNames_iff.2 ⟨_, hp, rfl⟩, List.nil_subset _⟩
    · intro q hq name hname
      rw [List.mem_singleton.1 hname]
      exact .single (fillsWith_of_unfolds hr hp hq)
  have hfilled : r.Filled p (r.fieldsWith (r.expand depth) p) :=
    filled_of_trail hr htrail (by simp only [List.length_singleton]; omega)
  rw [← hfilled.unique (filled_synthesizeFields hr p), hdepth, Nat.zero_add]
  rfl

theorem schemaFilled_synthesize (hr : r.WellFormed) (schema : Schema) :
    r.SchemaFilled schema (r.synthesize schema) := by
  have heq : r.synthesize schema =
      r.defaultWith (fun p => collapse (r.synthesizeFields p)) schema :=
    defaultWith_congr fun p hp _ =>
      expand_eq_collapse hr ((resolve_eq_object_iff hr.distinct).1 hp).1
  rw [heq]
  exact .intro r.synthesizeFields fun p _ _ => filled_synthesizeFields hr p

theorem fieldFilled_synthesizeField (hr : r.WellFormed) (f : Field) :
    r.FieldFilled f (r.synthesizeField f) := by
  cases hd : f.defaultValue with
  | some d => exact .literal (by simp [synthesizeField, hd])
  | none =>
    refine .schema hd ?_
    rw [synthesizeField, hd]
    exact schemaFilled_synthesize hr f.schema

/-! ## Cycles -/

/-- A chain from one name to another is a chain of unfoldings between their types. -/
theorem transGen_unfolds (hdistinct : r.typeNames.Nodup) {a b : String}
    (h : TransGen r.FillsWith a b) :
    ∃ o p, r.objectType? a = some o ∧ r.objectType? b = some p ∧ TransGen r.Unfolds o p := by
  have hstep : ∀ {a b : String}, r.FillsWith a b →
      ∃ o p, r.objectType? a = some o ∧ r.objectType? b = some p ∧ r.Unfolds o p := by
    rintro _ _ ⟨ho, hf, hrequired, hbare, hschema, hp, hunfilled⟩
    refine ⟨_, _, (objectType?_eq_some_iff hdistinct).2 ⟨ho, rfl⟩,
      (objectType?_eq_some_iff hdistinct).2 ⟨hp, rfl⟩, .field hf hrequired hbare ?_ hunfilled⟩
    exact (resolve_eq_object_iff hdistinct).2 ⟨hp, hschema⟩
  induction h with
  | single h =>
    obtain ⟨o, p, ho, hp, h⟩ := hstep h
    exact ⟨o, p, ho, hp, .single h⟩
  | tail _ h ih =>
    obtain ⟨o, p, ho, hp, hop⟩ := ih
    obtain ⟨p', q, hp', hq, hpq⟩ := hstep h
    obtain rfl := Option.some.inj (hp.symm.trans hp')
    exact ⟨o, q, ho, hq, hop.tail hpq⟩

/-! ## Compact defaults -/

/-- A value that a field or type of the registry gives as its default, under the schema that it is
the default of. -/
inductive Literal (r : Registry) : Schema → Value → Prop
  | field {o : ObjectType} {name : String} {f : Field} {v : Value} (owner : .object o ∈ r.types)
      (field : (name, f) ∈ o.fields) (given : f.defaultValue = some v) : Literal r f.schema v
  | object {o : ObjectType} {v : Value} (type : .object o ∈ r.types)
      (given : o.defaultValue = some v) : Literal r (.named o.name) v
  | variant {t : VariantType} {v : Value} (type : .variant t ∈ r.types)
      (given : t.defaultValue = some v) : Literal r (.named t.name) v

/-- The default literals of a registry, type by type. -/
def literals (r : Registry) : List (Schema × Value) :=
  r.types.flatMap fun t => match t with
    | .object o =>
      o.fields.filterMap (fun f => f.2.defaultValue.map fun v => (f.2.schema, v)) ++
        o.defaultValue.toList.map fun v => (.named o.name, v)
    | .variant t => t.defaultValue.toList.map fun v => (.named t.name, v)

theorem Literal.mem_literals {s : Schema} {v : Value} (h : r.Literal s v) : (s, v) ∈ r.literals := by
  rw [literals, List.mem_flatMap]
  cases h with
  | field ho hf hv =>
    exact ⟨_, ho, List.mem_append_left _ (List.mem_filterMap.2 ⟨_, hf, by rw [hv]; rfl⟩)⟩
  | object ho hv =>
    exact ⟨_, ho, List.mem_append_right _ (List.mem_map_of_mem (Option.mem_toList.2 hv))⟩
  | variant ht hv => exact ⟨_, ht, List.mem_map_of_mem (Option.mem_toList.2 hv)⟩

/-- What holds of null, of empty lists and of the literals, and of an object that is made of
defaults if it holds of these, holds of each default under the schema that it is the default of. -/
theorem synthesis_induction {P : Schema → Value → Prop} (null : ∀ s, P s .null)
    (list : ∀ s item, r.resolve s = .list item → P s (.list []))
    (literal : ∀ s v, r.Literal s v → P s v)
    (object : ∀ s o expand, r.resolve s = .object o →
      ((r.fieldsWith expand o).all fun f => f.2.isPlaceholder) = false →
      (∀ name f, (name, f) ∈ o.fields →
        P f.schema (f.defaultValue.getD (r.defaultWith expand f.schema))) →
      P s (.object (r.fieldsWith expand o))) :
    (∀ s, P s (r.synthesize s)) ∧
      ∀ o name f, .object o ∈ r.types → (name, f) ∈ o.fields → P f.schema (r.synthesizeField f) := by
  have hschema : ∀ expand : ObjectType → Value, (∀ s o, r.resolve s = .object o → P s (expand o)) →
      ∀ s, P s (r.defaultWith expand s) := by
    intro expand hexpand s
    rw [defaultWith]
    cases hs : r.resolve s with
    | primitive kind => exact null s
    | list item => exact list s item hs
    | object o =>
      cases hd : o.defaultValue with
      | none => simpa [hd] using hexpand s o hs
      | some d =>
        obtain rfl := eq_named_of_resolve_object hs
        simpa [hd] using literal _ d (.object (mem_types_of_resolve hs) hd)
    | variant t =>
      cases hd : t.defaultValue with
      | none => simpa [hd] using null s
      | some d =>
        obtain rfl := eq_named_of_resolve_variant hs
        simpa [hd] using literal _ d (.variant (mem_types_of_resolve_variant hs) hd)
  have hfield : ∀ expand : ObjectType → Value, (∀ s o, r.resolve s = .object o → P s (expand o)) →
      ∀ o name f, .object o ∈ r.types → (name, f) ∈ o.fields →
        P f.schema (f.defaultValue.getD (r.defaultWith expand f.schema)) := by
    intro expand hexpand o name f ho hf
    cases hd : f.defaultValue with
    | none => exact hschema expand hexpand f.schema
    | some d => exact literal _ d (.field ho hf hd)
  have hexpand : ∀ depth s o, r.resolve s = .object o → P s (r.expand depth o) := by
    intro depth
    induction depth with
    | zero => exact fun s _ _ => null s
    | succ depth ih =>
      intro s o hs
      rw [expand, collapse]
      split
      · exact null s
      · next hsays =>
        exact object s o _ hs (by simpa using hsays) fun name f =>
          hfield _ ih o name f (mem_types_of_resolve hs)
  exact ⟨hschema _ (hexpand _), hfield _ (hexpand _)⟩

theorem mem_fieldsWith {expand : ObjectType → Value} {key : String} {w : Value} :
    (key, w) ∈ r.fieldsWith expand o ↔ ∃ f, (key, f) ∈ o.fields ∧ f.optional = false ∧
      w = f.defaultValue.getD (r.defaultWith expand f.schema) := by
  simp only [fieldsWith, List.mem_map, List.mem_filter, Bool.not_eq_true', Prod.exists,
    Prod.mk.injEq]
  constructor
  · rintro ⟨name, f, ⟨hf, hrequired⟩, rfl, rfl⟩
    exact ⟨f, hf, hrequired, rfl⟩
  · rintro ⟨f, hf, hrequired, rfl⟩
    exact ⟨key, f, ⟨hf, hrequired⟩, rfl, rfl⟩

/-- Without hollow literals no default is hollow anywhere. -/
theorem compact_synthesis (hlit : ∀ s v, r.Literal s v → v.Compact) :
    (∀ schema, (r.synthesize schema).Compact) ∧
      ∀ o name f, .object o ∈ r.types → (name, f) ∈ o.fields → (r.synthesizeField f).Compact := by
  refine synthesis_induction (P := fun _ v => v.Compact) (fun _ => Value.compact_null)
    (fun _ _ _ => Value.compact_list_iff.2 (by simp)) hlit fun s o expand _ hsays heach => ?_
  refine Value.compact_object_iff.2 ⟨by simp [Value.isHollow, hsays], fun key v hv => ?_⟩
  obtain ⟨f, hf, -, rfl⟩ := mem_fieldsWith.1 hv
  exact heach key f hf

/-- In a registry that is accepted filling in ends: no chain of unfoldings goes on for ever, each
schema, field and type has exactly one outcome, and without hollow literals none of them is hollow
anywhere. In one that is refused for its defaults, unfolding a type of the cycle comes back to it,
and it has no outcome. -/
theorem filling_in_ends (r : Registry) :
    (r.check = .ok r →
      WellFounded (fun p o => r.Unfolds o p) ∧
      (∀ schema v, r.SchemaFilled schema v ↔ v = r.synthesize schema) ∧
      (∀ f v, r.FieldFilled f v ↔ v = r.synthesizeField f) ∧
      (∀ o fields, r.Filled o fields ↔ fields = r.synthesizeFields o) ∧
      ((∀ s v, r.Literal s v → v.Compact) →
        (∀ schema, (r.synthesize schema).Compact) ∧
        ∀ o name f, .object o ∈ r.types → (name, f) ∈ o.fields → (r.synthesizeField f).Compact)) ∧
    ∀ cycle, r.check = .error (.unboundedDefaults cycle) → ∀ name ∈ cycle,
      ∃ o, r.objectType? name = some o ∧ TransGen r.Unfolds o o ∧ ∀ fields, ¬ r.Filled o fields := by
  constructor
  · intro hcheck
    have hr : r.WellFormed := fault?_eq_none_iff.1 (fault?_of_check hcheck)
    refine ⟨⟨fun o => (filled_synthesizeFields hr o).acc⟩, fun schema v => ?_, fun f v => ?_,
      fun o fields => ?_, compact_synthesis⟩
    · refine ⟨fun h => h.unique (schemaFilled_synthesize hr schema), ?_⟩
      rintro rfl
      exact schemaFilled_synthesize hr schema
    · refine ⟨fun h => h.unique (fieldFilled_synthesizeField hr f), ?_⟩
      rintro rfl
      exact fieldFilled_synthesizeField hr f
    · refine ⟨fun h => h.unique (filled_synthesizeFields hr o), ?_⟩
      rintro rfl
      exact filled_synthesizeFields hr o
  · intro cycle hcheck name hname
    have hfault : r.fault? = some (.unboundedDefaults cycle) := fault?_of_refused hcheck
    obtain ⟨o, p, ho, hp, hop⟩ := transGen_unfolds (distinct_of_unboundedDefaults hfault)
      ((isCycle_of_unboundedDefaults hfault).transGen_self hname)
    obtain rfl := Option.some.inj (ho.symm.trans hp)
    exact ⟨o, ho, hop, fun fields hfilled => hfilled.not_transGen hop⟩

/-- What datasets and workbooks are filled in with is compact, and `endless` unfolds `node` for
ever. -/
theorem filling_in_ends_datasets :
    (∀ schema, (Analytics.registry.synthesize schema).Compact) ∧
      ∃ o, endless.objectType? "node" = some o ∧ TransGen endless.Unfolds o o := by
  have haccepted : Analytics.registry.check = .ok Analytics.registry := by
    rw [check, Analytics.registry_fault?]
  have hrefused : endless.check = .error (.unboundedDefaults ["node", "node"]) := by
    rw [check, fault?_endless]
  have hall : (Analytics.registry.literals.all fun l => l.2.isCompact) = true := by decide +kernel
  have hliterals : ∀ s v, Analytics.registry.Literal s v → v.Compact := fun s v hv =>
    Value.compact_of_isCompact v (List.all_eq_true.1 hall _ hv.mem_literals)
  obtain ⟨o, ho, hback, -⟩ := (filling_in_ends endless).2 _ hrefused "node" (by simp)
  exact ⟨(((filling_in_ends Analytics.registry).1 haccepted).2.2.2.2 hliterals).1, o, ho, hback⟩

end Registry

end TaggedMarkup
