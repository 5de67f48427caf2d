import TaggedMarkup.Proofs.Keyed
import TaggedMarkup.Proofs.Registry.Cycles
import TaggedMarkup.Schema.Analytics
import TaggedMarkup.Schema.Check
/-!
# A registry is accepted exactly if it is well formed

`WellFormed` says what a usable registry is by membership alone, and `RegistryFault.In` what each
fault says about the registry that has it. The check looks for the faults in an order: the lookups
by name that a later one makes mean what they say only once names are known to be distinct, so each
stage is characterized under what the stages before it have found.
-/
namespace TaggedMarkup

open Relation

variable {r : Registry}

namespace Registry

/-- A field of the first object type is filled in with the default of the second, which is made of
its own fields. -/
inductive FillsWith (r : Registry) : String → String → Prop
  | field {o p : ObjectType} {name : String} {f : Field} (owner : .object o ∈ r.types)
      (field : (name, f) ∈ o.fields) (required : f.optional = false)
      (bare : f.defaultValue = none) (schema : f.schema = .named p.name)
      (target : .object p ∈ r.types) (unfilled : p.defaultValue = none) : FillsWith r o.name p.name

/-- What a usable registry is. -/
structure WellFormed (r : Registry) : Prop where
  distinct : r.typeNames.Nodup
  documents : ∀ kind schema name, (kind, schema) ∈ r.documents → schema.typeName? = some name →
    name ∈ r.typeNames
  fields : ∀ o field f name, .object o ∈ r.types → (field, f) ∈ o.fields →
    f.schema.typeName? = some name → name ∈ r.typeNames
  cases : ∀ v case schema name, .variant v ∈ r.types → (case, schema) ∈ v.cases →
    schema.typeName? = some name → name ∈ r.typeNames
  inline : ∀ v, .variant v ∈ r.types → v.isInline = true → v.cases.length = 1
  payloads : ∀ v case schema, .variant v ∈ r.types → (case, schema) ∈ v.cases →
    ∃ o, .object o ∈ r.types ∧ schema = .named o.name
  bounded : ∀ name, ¬ TransGen r.FillsWith name name

/-- The document or type of this name refers to the schema. -/
inductive Refers (r : Registry) : String → Schema → Prop
  | document {kind : String} {schema : Schema} (root : (kind, schema) ∈ r.documents) :
      Refers r kind schema
  | field {o : ObjectType} {name : String} {f : Field} (owner : .object o ∈ r.types)
      (field : (name, f) ∈ o.fields) : Refers r o.name f.schema
  | case {v : VariantType} {name : String} {schema : Schema} (owner : .variant v ∈ r.types)
      (case : (name, schema) ∈ v.cases) : Refers r v.name schema

end Registry

/-- What a fault says about the registry is so. -/
inductive RegistryFault.In (r : Registry) : RegistryFault → Prop
  | duplicateType {name : String} (twice : 2 ≤ r.typeNames.count name) :
      In r (.duplicateType name)
  | unknownType {owner name : String} {schema : Schema} (refers : r.Refers owner schema)
      (named : schema.typeName? = some name) (missing : name ∉ r.typeNames) :
      In r (.unknownType owner name)
  | inlineCases {v : VariantType} (type : .variant v ∈ r.types) (inline : v.isInline = true)
      (count : v.cases.length ≠ 1) : In r (.inlineCases v.name v.cases.length)
  | caseNotObject {v : VariantType} {case : String} {schema : Schema}
      (type : .variant v ∈ r.types) (mem : (case, schema) ∈ v.cases)
      (scalar : ∀ o, .object o ∈ r.types → schema ≠ .named o.name) :
      In r (.caseNotObject case v.name)
  | unboundedDefaults {cycle : List String} (cyclic : IsCycle r.FillsWith cycle) :
      In r (.unboundedDefaults cycle)

namespace Registry

/-! ## Type names -/

theorem firstRepeated?_eq_none_iff {seen names : List String} :
    firstRepeated? seen names = none ↔ names.Nodup ∧ ∀ name ∈ names, name ∉ seen := by
  induction names generalizing seen with
  | nil => simp [firstRepeated?]
  | cons name rest ih =>
    rw [firstRepeated?]
    by_cases hseen : name ∈ seen
    · simp [hseen]
    · simp only [hseen, if_false, ih, List.nodup_cons, List.mem_cons, not_or, forall_eq_or_imp]
      constructor
      · rintro ⟨hnodup, hnew⟩
        exact ⟨⟨fun hname => (hnew name hname).1 rfl, hnodup⟩, not_false, fun n hn => (hnew n hn).2⟩
      · rintro ⟨⟨hname, hnodup⟩, -, hnew⟩
        exact ⟨hnodup, fun n hn => ⟨fun heq => hname (heq ▸ hn), hnew n hn⟩⟩

theorem le_count_of_firstRepeated? {seen names : List String} {name : String}
    (h : firstRepeated? seen names = some name) :
    name ∈ names ∧ (name ∉ seen → 2 ≤ names.count name) := by
  induction names generalizing seen with
  | nil => cases h
  | cons first rest ih =>
    rw [firstRepeated?] at h
    split at h
    · next hseen =>
      obtain rfl := Option.some.inj h
      exact ⟨List.mem_cons_self, fun hnew => absurd hseen hnew⟩
    · obtain ⟨hmem, htwice⟩ := ih h
      refine ⟨List.mem_cons_of_mem _ hmem, fun hnew => ?_⟩
      by_cases heq : name = first
      · subst heq
        have hpos : 0 < rest.count name := List.count_pos_iff.2 hmem
        rw [List.count_cons_self]
        omega
      · rw [List.count_cons_of_ne (Ne.symm heq)]
        exact htwice (by simpa [heq] using hnew)

theorem mem_typeNames_iff {name : String} : name ∈ r.typeNames ↔ ∃ t ∈ r.types, t.name = name :=
  List.mem_map

theorem type?_eq_none_iff {name : String} : r.type? name = none ↔ name ∉ r.typeNames := by
  simp [type?, mem_typeNames_iff]

theorem eq_of_name_eq (h : r.typeNames.Nodup) {t u : TypeDef} (ht : t ∈ r.types) (hu : u ∈ r.types)
    (heq : t.name = u.name) : t = u := List.inj_on_of_nodup_map h ht hu heq

theorem type?_eq_some_iff (h : r.typeNames.Nodup) {name : String} {t : TypeDef} :
    r.type? name = some t ↔ t ∈ r.types ∧ t.name = name := by
  have hfound : ∀ u, r.type? name = some u → u ∈ r.types ∧ u.name = name := fun u hu =>
    ⟨mem_types_of_type? hu, name_of_type? hu⟩
  refine ⟨hfound t, fun ⟨ht, hname⟩ => ?_⟩
  cases hu : r.type? name with
  | none => exact absurd (mem_typeNames_iff.2 ⟨t, ht, hname⟩) (type?_eq_none_iff.1 hu)
  | some u =>
    obtain ⟨hmem, hname'⟩ := hfound u hu
    rw [eq_of_name_eq h hmem ht (hname'.trans hname.symm)]

theorem objectType?_eq_some_iff (h : r.typeNames.Nodup) {name : String} {o : ObjectType} :
    r.objectType? name = some o ↔ .object o ∈ r.types ∧ o.name = name := by
  rw [objectType?, show o.name = (TypeDef.object o).name from rfl, ← type?_eq_some_iff h]
  cases ht : r.type? name with
  | none => simp
  | some t => cases t <;> simp

theorem objectOf?_eq_some_iff (h : r.typeNames.Nodup) {schema : Schema} {o : ObjectType} :
    r.objectOf? schema = some o ↔ .object o ∈ r.types ∧ schema = .named o.name := by
  cases schema with
  | primitive _ => simp [objectOf?, resolve]
  | list _ => simp [objectOf?, resolve]
  | named name =>
    rw [Schema.named.injEq, eq_comm (a := name), ← objectType?_eq_some_iff h, objectOf?, resolve,
      objectType?]
    cases ht : r.type? name with
    | none => simp
    | some t => cases t <;> simp

theorem resolve_eq_object_iff (h : r.typeNames.Nodup) {schema : Schema} {o : ObjectType} :
    r.resolve schema = .object o ↔ .object o ∈ r.types ∧ schema = .named o.name := by
  rw [← objectOf?_eq_some_iff h, objectOf?]
  cases r.resolve schema <;> simp

/-! ## Types that are referred to -/

theorem mem_references_iff {owner : String} {schema : Schema} :
    (owner, schema) ∈ r.references ↔ r.Refers owner schema := by
  simp only [references, List.mem_append, List.mem_flatMap, List.mem_map, Prod.mk.injEq]
  constructor
  · rintro (hroot | ⟨t, ht, _, hschema, rfl, rfl⟩)
    · exact .document hroot
    · cases t with
      | object o =>
        obtain ⟨⟨name, f⟩, hf, rfl⟩ := List.mem_map.1 hschema
        exact .field ht hf
      | variant v =>
        obtain ⟨⟨name, s⟩, hs, rfl⟩ := List.mem_map.1 hschema
        exact .case ht hs
  · rintro (hroot | ⟨ho, hf⟩ | ⟨hv, hs⟩)
    · exact .inl hroot
    · exact .inr ⟨_, ho, _, List.mem_map_of_mem hf, rfl, rfl⟩
    · exact .inr ⟨_, hv, _, List.mem_map_of_mem hs, rfl, rfl⟩

theorem missingType?_eq_some_iff {reference : String × Schema} {fault : RegistryFault} :
    r.missingType? reference = some fault ↔ ∃ name, reference.2.typeName? = some name ∧
      name ∉ r.typeNames ∧ fault = .unknownType reference.1 name := by
  rw [missingType?]
  cases hname : reference.2.typeName? with
  | none => simp
  | some name =>
    simp only [Option.isNone_iff_eq_none, type?_eq_none_iff, Option.ite_none_right_eq_some,
      Option.some.injEq, exists_eq_left', eq_comm (a := fault)]

theorem findSome?_missingType?_eq_none_iff : r.references.findSome? r.missingType? = none ↔
    ∀ owner schema name, r.Refers owner schema → schema.typeName? = some name →
      name ∈ r.typeNames := by
  rw [List.findSome?_eq_none_iff]
  constructor
  · intro h owner schema name hrefers hname
    by_contra hmissing
    have hnone := h _ (mem_references_iff.2 hrefers)
    rw [missingType?_eq_some_iff.2 ⟨name, hname, hmissing, rfl⟩] at hnone
    cases hnone
  · rintro h ⟨owner, schema⟩ hmem
    refine Option.eq_none_iff_forall_ne_some.2 fun fault hfault => ?_
    obtain ⟨name, hname, hmissing, -⟩ := missingType?_eq_some_iff.1 hfault
    exact hmissing (h owner schema name (mem_references_iff.1 hmem) hname)

theorem in_of_missingType? {reference : String × Schema} (hmem : reference ∈ r.references)
    {fault : RegistryFault} (hfault : r.missingType? reference = some fault) : fault.In r := by
  obtain ⟨name, hname, hmissing, rfl⟩ := missingType?_eq_some_iff.1 hfault
  exact .unknownType (mem_references_iff.1 hmem) hname hmissing

/-! ## Variants -/

theorem variantFault?_eq_none_iff (h : r.typeNames.Nodup) {v : VariantType} :
    r.variantFault? (.variant v) = none ↔ (v.isInline = true → v.cases.length = 1) ∧
      ∀ case schema, (case, schema) ∈ v.cases →
        ∃ o, .object o ∈ r.types ∧ schema = .named o.name := by
  have hobject : ∀ schema, r.objectOf? schema ≠ none ↔
      ∃ o, .object o ∈ r.types ∧ schema = .named o.name := by
    intro schema
    simp only [Option.ne_none_iff_exists', objectOf?_eq_some_iff h]
  rw [variantFault?]
  split
  · next hinline => simp [hinline.1, hinline.2]
  · next hinline =>
    have hcount : v.isInline = true → v.cases.length = 1 := fun h =>
      by_contra fun hne => hinline ⟨h, hne⟩
    rw [and_iff_right hcount]
    simp [List.findSome?_eq_none_iff, ← hobject]

theorem in_of_variantFault? (h : r.typeNames.Nodup) {t : TypeDef} (ht : t ∈ r.types)
    {fault : RegistryFault} (hfault : r.variantFault? t = some fault) : fault.In r := by
  cases t with
  | object o => cases hfault
  | variant v =>
    rw [variantFault?] at hfault
    split at hfault
    · next hinline =>
      obtain rfl := Option.some.inj hfault
      exact .inlineCases ht hinline.1 hinline.2
    · obtain ⟨⟨case, schema⟩, hmem, hsome⟩ := List.exists_of_findSome?_eq_some hfault
      simp only [Option.ite_none_right_eq_some, Option.isNone_iff_eq_none] at hsome
      obtain ⟨hnone, hsome⟩ := hsome
      obtain rfl := Option.some.inj hsome
      exact .caseNotObject ht hmem fun o ho heq =>
        Option.some_ne_none o (((objectOf?_eq_some_iff h).2 ⟨ho, heq⟩).symm.trans hnone)

/-! ## Filling in -/

theorem filledBy?_eq_some_iff {f : Field} {name : String} :
    r.filledBy? f = some name ↔ f.optional = false ∧ f.defaultValue = none ∧
      f.schema = .named name ∧ ∃ p, r.objectType? name = some p ∧ p.defaultValue = none := by
  constructor
  · intro hfilled
    rw [filledBy?] at hfilled
    split at hfilled
    · next hrequired hbare hschema =>
      split at hfilled
      · next p hp =>
        simp only [Option.ite_none_right_eq_some, Option.isNone_iff_eq_none, Option.some.injEq]
          at hfilled
        obtain ⟨hunfilled, rfl⟩ := hfilled
        exact ⟨hrequired, hbare, hschema, p, hp, hunfilled⟩
      · cases hfilled
    · cases hfilled
  · rintro ⟨hrequired, hbare, hschema, p, hp, hunfilled⟩
    simp [filledBy?, hrequired, hbare, hschema, hp, hunfilled]

theorem mem_fillEdges_iff (h : r.typeNames.Nodup) {a b : String} :
    b ∈ r.fillEdges a ↔ r.FillsWith a b := by
  constructor
  · intro hb
    rw [fillEdges] at hb
    split at hb
    · next o ho =>
      obtain ⟨hmem, rfl⟩ := (objectType?_eq_some_iff h).1 ho
      obtain ⟨⟨name, f⟩, hf, hfilled⟩ := List.mem_filterMap.1 hb
      obtain ⟨hrequired, hbare, hschema, p, hp, hunfilled⟩ := filledBy?_eq_some_iff.1 hfilled
      obtain ⟨htarget, rfl⟩ := (objectType?_eq_some_iff h).1 hp
      exact .field hmem hf hrequired hbare hschema htarget hunfilled
    · cases hb
  · rintro ⟨ho, hf, hrequired, hbare, hschema, hp, hunfilled⟩
    rw [fillEdges, (objectType?_eq_some_iff h).2 ⟨ho, rfl⟩]
    exact List.mem_filterMap.2 ⟨_, hf, filledBy?_eq_some_iff.2
      ⟨hrequired, hbare, hschema, _, (objectType?_eq_some_iff h).2 ⟨hp, rfl⟩, hunfilled⟩⟩

theorem dependsOn_fillings_iff (h : r.typeNames.Nodup) {a b : String} :
    r.fillings.DependsOn a b ↔ r.FillsWith a b := by
  rw [← mem_fillEdges_iff h]
  constructor
  · rintro ⟨names, hmem, hb⟩
    obtain ⟨name, -, heq⟩ := List.mem_map.1 hmem
    obtain ⟨rfl, rfl⟩ := Prod.mk.inj heq
    exact hb
  · intro hb
    refine ⟨r.fillEdges a, List.mem_map.2 ⟨a, List.mem_mergeSort.2 ?_, rfl⟩, hb⟩
    cases (mem_fillEdges_iff h).1 hb with
    | field ho => exact mem_typeNames_iff.2 ⟨_, ho, rfl⟩

theorem fillCycle?_eq_none_iff (h : r.typeNames.Nodup) :
    r.fillCycle? = none ↔ ∀ name, ¬ TransGen r.FillsWith name name := by
  have hsame : r.fillings.DependsOn = r.FillsWith := by
    funext a b
    exact propext (dependsOn_fillings_iff h)
  rw [fillCycle?, Dependencies.cycle?_eq_none_iff, hsame]

theorem isCycle_of_fillCycle? (h : r.typeNames.Nodup) {cycle : List String}
    (hcycle : r.fillCycle? = some cycle) : IsCycle r.FillsWith cycle :=
  (Dependencies.isCycle_of_cycle? hcycle).imp fun _ _ => (dependsOn_fillings_iff h).1

/-- Whether there is a cycle does not depend on the order of the types. -/
theorem fillCycle?_eq_none_iff_unsorted : r.fillCycle? = none ↔
    Dependencies.cycle? (r.typeNames.map fun name => (name, r.fillEdges name)) = none := by
  have hsame : r.fillings.DependsOn =
      Dependencies.DependsOn (r.typeNames.map fun name => (name, r.fillEdges name)) := by
    funext a b
    simp [Dependencies.DependsOn, fillings, List.mem_mergeSort]
  rw [fillCycle?, Dependencies.cycle?_eq_none_iff, Dependencies.cycle?_eq_none_iff, hsame]

/-! ## All stages -/

/-- Nothing is found in a registry exactly if it is well formed. -/
theorem fault?_eq_none_iff : r.fault? = none ↔ r.WellFormed := by
  simp only [fault?, Option.or_eq_none_iff, Option.map_eq_none_iff]
  constructor
  · rintro ⟨⟨⟨hnames, hrefers⟩, hvariants⟩, hfill⟩
    have hdistinct : r.typeNames.Nodup := (firstRepeated?_eq_none_iff.1 hnames).1
    have hnamed := findSome?_missingType?_eq_none_iff.1 hrefers
    have hvariant : ∀ v, .variant v ∈ r.types → r.variantFault? (.variant v) = none := fun v hv =>
      List.findSome?_eq_none_iff.1 hvariants _ hv
    exact {
      distinct := hdistinct
      documents := fun kind schema name hroot => hnamed kind schema name (.document hroot)
      fields := fun o field f name ho hf => hnamed o.name f.schema name (.field ho hf)
      cases := fun v case schema name hv hs => hnamed v.name schema name (.case hv hs)
      inline := fun v hv => ((variantFault?_eq_none_iff hdistinct).1 (hvariant v hv)).1
      payloads := fun v case schema hv =>
        ((variantFault?_eq_none_iff hdistinct).1 (hvariant v hv)).2 case schema
      bounded := (fillCycle?_eq_none_iff hdistinct).1 hfill }
  · intro h
    refine ⟨⟨⟨firstRepeated?_eq_none_iff.2 ⟨h.distinct, by simp⟩, ?_⟩, ?_⟩,
      (fillCycle?_eq_none_iff h.distinct).2 h.bounded⟩
    · refine findSome?_missingType?_eq_none_iff.2 fun owner schema name hrefers hname => ?_
      cases hrefers with
      | document hroot => exact h.documents _ _ name hroot hname
      | field ho hf => exact h.fields _ _ _ name ho hf hname
      | case hv hs => exact h.cases _ _ _ name hv hs hname
    · refine List.findSome?_eq_none_iff.2 fun t ht => ?_
      cases t with
      | object o => rfl
      | variant v =>
        exact (variantFault?_eq_none_iff h.distinct).2
          ⟨h.inline v ht, fun case schema => h.payloads v case schema ht⟩

/-- What is found in a registry is so. -/
theorem in_of_fault? {fault : RegistryFault} (hfault : r.fault? = some fault) : fault.In r := by
  simp only [fault?, Option.or_eq_some_iff, Option.or_eq_none_iff, Option.map_eq_none_iff,
    Option.map_eq_some_iff] at hfault
  rcases hfault with ((⟨name, hname, rfl⟩ | ⟨-, hrefers⟩) | ⟨⟨hnames, -⟩, hvariants⟩) |
    ⟨⟨⟨hnames, -⟩, -⟩, cycle, hcycle, rfl⟩
  · exact .duplicateType ((le_count_of_firstRepeated? hname).2 (by simp))
  · obtain ⟨reference, hmem, hsome⟩ := List.exists_of_findSome?_eq_some hrefers
    exact in_of_missingType? hmem hsome
  · obtain ⟨t, ht, hsome⟩ := List.exists_of_findSome?_eq_some hvariants
    exact in_of_variantFault? (firstRepeated?_eq_none_iff.1 hnames).1 ht hsome
  · have hdistinct : r.typeNames.Nodup := (firstRepeated?_eq_none_iff.1 hnames).1
    exact .unboundedDefaults (isCycle_of_fillCycle? hdistinct hcycle)

/-- A cycle is looked for only among distinct names. -/
theorem distinct_of_unboundedDefaults {cycle : List String}
    (hfault : r.fault? = some (.unboundedDefaults cycle)) : r.typeNames.Nodup := by
  simp only [fault?, Option.or_eq_some_iff, Option.or_eq_none_iff, Option.map_eq_none_iff,
    Option.map_eq_some_iff] at hfault
  rcases hfault with ((⟨name, -, heq⟩ | ⟨-, hrefers⟩) | ⟨⟨hnames, -⟩, -⟩) | ⟨⟨⟨hnames, -⟩, -⟩, -⟩
  · cases heq
  · obtain ⟨reference, -, hsome⟩ := List.exists_of_findSome?_eq_some hrefers
    obtain ⟨name, -, -, heq⟩ := missingType?_eq_some_iff.1 hsome
    cases heq
  · exact (firstRepeated?_eq_none_iff.1 hnames).1
  · exact (firstRepeated?_eq_none_iff.1 hnames).1

theorem isCycle_of_unboundedDefaults {cycle : List String}
    (hfault : r.fault? = some (.unboundedDefaults cycle)) : IsCycle r.FillsWith cycle := by
  cases in_of_fault? hfault with
  | unboundedDefaults hcycle => exact hcycle

theorem fault?_of_check {s : Registry} (h : r.check = .ok s) : r.fault? = none := by
  rw [check] at h
  cases hfault : r.fault? with
  | none => rfl
  | some fault => simp [hfault] at h

theorem fault?_of_refused {fault : RegistryFault} (h : r.check = .error fault) :
    r.fault? = some fault := by
  rw [check] at h
  cases hfault : r.fault? with
  | none => simp [hfault] at h
  | some found => simpa [hfault] using h

/-- The check accepts the well-formed registries, as they are, and no other, and what it reports of
a registry that it refuses is so. -/
theorem check_accepts_wellFormed (r : Registry) :
    (∀ s, r.check = .ok s ↔ s = r ∧ r.WellFormed) ∧
      ∀ fault, r.check = .error fault → fault.In r := by
  rw [← fault?_eq_none_iff, check]
  cases hfault : r.fault? with
  | none => simp [eq_comm]
  | some fault => simpa using in_of_fault? hfault

/-- A type that is filled in with itself. -/
def endless : Registry :=
  { types := [.object { name := "node", fields := [("next", Schema.named "node")] }] }

theorem fault?_endless : endless.fault? = some (.unboundedDefaults ["node", "node"]) := by
  have hsorted : endless.fillings = [("node", ["node"])] := by
    rw [fillings, show endless.typeNames = ["node"] from rfl, List.mergeSort_singleton]
    rfl
  rw [fault?, fillCycle?, hsorted]
  rfl

theorem check_refuses_endless :
    endless.check = .error (.unboundedDefaults ["node", "node"]) ∧
      (RegistryFault.unboundedDefaults ["node", "node"]).In endless := by
  have hcheck : endless.check = .error (.unboundedDefaults ["node", "node"]) := by
    rw [check, fault?_endless]
  exact ⟨hcheck, (check_accepts_wellFormed endless).2 _ hcheck⟩

end Registry

/-- The types and documents of datasets and workbooks are accepted. -/
theorem Analytics.registry_fault? : registry.fault? = none := by
  rw [Registry.fault?, Registry.fillCycle?_eq_none_iff_unsorted.2 (by decide +kernel)]
  decide +kernel

end TaggedMarkup
