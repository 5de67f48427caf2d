import Mathlib.Data.List.MinMax
import TaggedMarkup.Proofs.Analytics
import TaggedMarkup.Proofs.Encoding.Levels
import TaggedMarkup.Proofs.Filling.Saturation
import TaggedMarkup.Proofs.Filling.Synthesis
import TaggedMarkup.Proofs.Inside
/-!
# Encoding goes no deeper than the value and the defaults

A call of the encoder goes on to the values inside, which are less deep, and to what it fills in.
If the literals of the registry are complete, a value that is filled in has all its fields, at any
depth, so that encoding it fills in nothing more. Then the depth of calls is bounded by the depth of
the value and that of the deepest default.
-/
namespace TaggedMarkup

open Encoder

/-! ## Depth -/

theorem depth_lt_of_mem_objectFields? {v w : Value} {fields : Entries Value} {key : String}
    (h : objectFields? v = some fields) (hw : (key, w) ∈ fields) : w.depth < v.depth := by
  cases v with
  | object own =>
    obtain rfl := Option.some.inj h
    exact Value.depth_lt_of_mem_fields hw
  | null =>
    obtain rfl := Option.some.inj h
    cases hw
  | _ => cases h

theorem depth_lt_of_body? {r : Registry} {schema : Option Schema} {v w : Value}
    {o : Option ObjectType} {fields : Entries Value} {key : String}
    (h : body? r schema v = some (o, fields)) (hw : (key, w) ∈ fields) : w.depth < v.depth := by
  cases v with
  | object own =>
    simp only [body?] at h
    split at h
    · split at h
      · cases h
      · next key' payload rest hc =>
        obtain ⟨inner, hp, heq⟩ := Option.map_eq_some_iff.1 h
        obtain ⟨-, rfl⟩ := Prod.mk.inj heq
        exact Nat.lt_trans (depth_lt_of_mem_objectFields? hp hw)
          (Value.depth_lt_of_mem_fields List.mem_cons_self)
      · obtain ⟨c, -, heq⟩ := Option.map_eq_some_iff.1 h
        obtain ⟨-, rfl⟩ := Prod.mk.inj heq
        exact Value.depth_lt_of_mem_fields hw
    · obtain ⟨p, -, heq⟩ := Option.map_eq_some_iff.1 h
      obtain ⟨-, rfl⟩ := Prod.mk.inj heq
      exact Value.depth_lt_of_mem_fields hw
  | _ => cases h

/-! ## Complete values -/

/-- Encoding a value under a schema encodes these fields under the object type. -/
inductive Encodes (r : Registry) (o : ObjectType) (fields : Entries Value) :
    Option Schema → Value → Prop
  | here {schema : Option Schema} {v : Value} (body : body? r schema v = some (some o, fields)) :
      Encodes r o fields schema v
  | item {schema item : Option Schema} {items : List Value} {v : Value}
      (list : itemType? (schema.map r.resolve) = some item) (mem : v ∈ items)
      (inner : Encodes r o fields item v) : Encodes r o fields schema (.list items)
  | field {schema : Option Schema} {v w : Value} {p : Option ObjectType} {own : Entries Value}
      {key : String} (body : body? r schema v = some (p, own)) (mem : (key, w) ∈ own)
      (element : IsFieldName key)
      (inner : Encodes r o fields ((declared? p key).map Field.schema) w) :
      Encodes r o fields schema v

/-- Wherever the value holds an object that is encoded under an object type, the object has every
field of the type that is not optional. -/
def Complete (r : Registry) (schema : Option Schema) (v : Value) : Prop :=
  ∀ o fields, Encodes r o fields schema v → ∀ name f, (name, f) ∈ o.fields → f.optional = false →
    name ∈ fields.keys

/-- The default literals of a registry are complete where they are encoded. -/
def Registry.CompleteLiterals (r : Registry) : Prop :=
  ∀ s v, r.Literal s v → Complete r (some s) v

variable {r : Registry} {c : Convention} {schema : Option Schema} {v : Value}

theorem complete_null : Complete r schema .null := by
  rintro o fields (hbody | - | ⟨hbody, -, -, -⟩) <;> cases hbody

theorem complete_nil : Complete r schema (.list []) := by
  rintro o fields (hbody | ⟨-, hmem, -⟩ | ⟨hbody, -, -, -⟩)
  · cases hbody
  · cases hmem
  · cases hbody

/-- What a field is filled in with is complete: an object that is made of the defaults of its type
lacks no field, and each of its fields is encoded under the schema that its default was made for. -/
theorem complete_synthesizeField (hkeys : ∀ o, .object o ∈ r.types → o.fields.Distinct)
    (hlit : r.CompleteLiterals) {o : ObjectType} {name : String} {f : Field}
    (ho : .object o ∈ r.types) (hf : (name, f) ∈ o.fields) :
    Complete r (some f.schema) (r.synthesizeField f) := by
  refine (Registry.synthesis_induction (P := fun s v => Complete r (some s) v)
    (fun _ => complete_null) (fun _ _ _ => complete_nil) hlit ?_).2 o name f ho hf
  intro s o expand hs _ heach
  have hbody : ∀ p own, body? r (some s) (.object (r.fieldsWith expand o)) = some (p, own) →
      p = some o ∧ own = r.fieldsWith expand o := by
    intro p own hbody
    simp only [body?, Option.map_some, hs, plainType?, Option.some.injEq, Prod.mk.injEq] at hbody
    exact ⟨hbody.1.symm, hbody.2.symm⟩
  intro p own henc name f hf hrequired
  cases henc with
  | here body =>
    obtain ⟨hp, rfl⟩ := hbody _ _ body
    obtain rfl := Option.some.inj hp
    exact Entries.mem_keys_of_mem (Registry.mem_fieldsWith.2 ⟨f, hf, hrequired, rfl⟩)
  | field body mem _ inner =>
    obtain ⟨rfl, rfl⟩ := hbody _ _ body
    obtain ⟨g, hg, -, rfl⟩ := Registry.mem_fieldsWith.1 mem
    have hdeclared : declared? (some o) _ = some g :=
      (Entries.get?_eq_some_iff (hkeys o (Registry.mem_types_of_resolve hs))).2 hg
    rw [hdeclared] at inner
    exact heach _ g hg p own inner name f hf hrequired

/-! ## Levels that are enough -/

namespace Encoder

/-- From this many levels on, the default of a field is encoded as `fill` does it. -/
def FilledWithin (r : Registry) (c : Convention) (fill : Field → Path → Except EncodeError Tree)
    (least : Nat) (f : Field) : Prop :=
  ∀ levels, least ≤ levels → ∀ path,
    EndsAs (encodeWithin r c levels (r.synthesizeField f) (some f.schema) f.verbatim path)
      (fill f path)

variable {fill : Field → Path → Except EncodeError Tree} {least levels : Nat}

/-- The calls on the fields of a body end as those of the encoder, one level further down. -/
theorem encodeWithin_endsAs
    (hfill : ∀ o fields, Encodes r o fields schema v → ∀ name f, (name, f) ∈ o.fields →
      f.optional = false → name ∉ fields.keys → FilledWithin r c fill least f)
    (h : v.depth + least < levels) {verbatim : Bool} {path : Path} :
    EndsAs (encodeWithin r c levels v schema verbatim path)
      (encode ⟨r, c, fill⟩ v schema verbatim path) := by
  induction levels generalizing v schema verbatim path with
  | zero => cases h
  | succ levels ih =>
    rw [encode_eq_encodeLevel, encodeWithin]
    refine encodeLevel_endsAs (fun o fields hbody => ⟨?_, ?_⟩) ?_
    · intro key w hw hkey verbatim path
      have hdepth : w.depth < v.depth := depth_lt_of_body? hbody hw
      exact ih (fun o' inner henc => hfill o' inner (.field hbody hw hkey henc)) (by omega)
    · rintro t rfl name f hf hrequired hnew path
      exact hfill t fields (.here hbody) name f hf hrequired hnew levels (by omega) path
    · rintro items item rfl hitem w hw path
      have hdepth : w.depth < (Value.list items).depth := Value.depth_lt_of_mem_items hw
      exact ih (fun o inner henc => hfill o inner (.item hitem hw henc)) (by omega)

/-- The depth of the deepest default that a field is filled in with. -/
def deepestDefault (r : Registry) : Nat :=
  ((registryFields r).map fun f => (r.synthesizeField f).depth).foldr max 0

theorem depth_le_deepestDefault {f : Field} (h : f ∈ registryFields r) :
    (r.synthesizeField f).depth ≤ deepestDefault r :=
  List.le_max_of_le' 0 (List.mem_map_of_mem h) (Nat.le_refl _)

theorem filledWithin_ofRegistry (hkeys : ∀ o, .object o ∈ r.types → o.fields.Distinct)
    (hlit : r.CompleteLiterals) {o : ObjectType} {name : String} {f : Field}
    (ho : .object o ∈ r.types) (hf : (name, f) ∈ o.fields) :
    FilledWithin r c (ofRegistry r c).fill (deepestDefault r + 1) f := by
  intro levels hlevels path
  have hmem : f ∈ registryFields r := mem_registryFields.2 ⟨o, name, ho, hf⟩
  have hpos : 0 < fieldCount r := length_registryFields r ▸ List.length_pos_of_mem hmem
  have hdepth := depth_le_deepestDefault hmem
  obtain ⟨chain, hchain⟩ := Nat.exists_eq_add_of_lt hpos
  have hfill : (ofRegistry r c).fill f path =
      encode ⟨r, c, fillField r c chain⟩ (r.synthesizeField f) (some f.schema) f.verbatim path := by
    show fillField r c (fieldCount r) f path = _
    rw [hchain, Nat.zero_add]
    rfl
  rw [hfill]
  -- The default lacks no field, so there is nothing more to fill in.
  have hcomplete := complete_synthesizeField hkeys hlit ho hf
  have hdepth : (r.synthesizeField f).depth + 0 < levels := by omega
  exact encodeWithin_endsAs (fun p fields henc name g hg hg' hnew =>
    absurd (hcomplete p fields henc name g hg hg') hnew) hdepth

theorem mem_types_of_body? {o : ObjectType} {fields : Entries Value}
    (h : body? r schema v = some (some o, fields)) : .object o ∈ r.types := by
  cases v with
  | object own =>
    simp only [body?] at h
    split at h
    · split at h
      · cases h
      · obtain ⟨inner, -, heq⟩ := Option.map_eq_some_iff.1 h
        exact Registry.mem_types_of_objectOf? (Prod.mk.inj heq).1
      · obtain ⟨c, -, heq⟩ := Option.map_eq_some_iff.1 h
        exact Registry.mem_types_of_objectOf? (Prod.mk.inj heq).1
    · obtain ⟨p, hplain, heq⟩ := Option.map_eq_some_iff.1 h
      exact mem_types_of_plainType? hplain (Prod.mk.inj heq).1
  | _ => cases h

theorem mem_types_of_encodes {o : ObjectType} {fields : Entries Value}
    (h : Encodes r o fields schema v) : .object o ∈ r.types := by
  induction h with
  | here body => exact mem_types_of_body? body
  | item _ _ _ ih => exact ih
  | field _ _ _ _ ih => exact ih

/-- A value is encoded within as many levels as it and the deepest default are deep. -/
theorem encodeWithin_ofRegistry (hkeys : ∀ o, .object o ∈ r.types → o.fields.Distinct)
    (hlit : r.CompleteLiterals) {levels : Nat} (h : v.depth + deepestDefault r + 2 ≤ levels)
    {verbatim : Bool} {path : Path} :
    EndsAs (encodeWithin r c levels v schema verbatim path)
      ((ofRegistry r c).encode v schema verbatim path) := by
  have hdepth : v.depth + (deepestDefault r + 1) < levels := by omega
  exact encodeWithin_endsAs (fun o fields henc name f hf _ _ =>
    filledWithin_ofRegistry hkeys hlit (mem_types_of_encodes henc) hf) hdepth

/-- The same at the root. -/
theorem encodeRootWithin_ofRegistry (hkeys : ∀ o, .object o ∈ r.types → o.fields.Distinct)
    (hlit : r.CompleteLiterals) {levels : Nat} {schema : Schema}
    (h : v.depth + deepestDefault r + 2 ≤ levels) :
    EndsAs (encodeRootWithin r c levels v schema) ((ofRegistry r c).encodeRoot v schema) := by
  rw [encodeRoot_eq_rootLevel]
  refine rootLevel_endsAs (fun o fields hplain hfields => ⟨fun key w hw _ verbatim path => ?_, ?_⟩)
    fun path => encodeWithin_ofRegistry hkeys hlit h
  · have hdepth : w.depth < v.depth := depth_lt_of_mem_objectFields? hfields hw
    exact encodeWithin_ofRegistry hkeys hlit (by omega)
  · rintro t rfl name f hf - - path
    have hplain : plainType? ((some schema).map r.resolve) = some (some t) := hplain
    have ht : .object t ∈ r.types := mem_types_of_plainType? hplain rfl
    exact filledWithin_ofRegistry hkeys hlit ht hf levels (by omega) path

end Encoder

/-! ## Checking that literals are complete -/

/-- Searches a value for objects that lack a field, this many levels deep. -/
def isComplete (r : Registry) : Nat → Option Schema → Value → Bool
  | 0, _, _ => false
  | levels + 1, schema, v =>
    ((body? r schema v).all fun b =>
      (b.1.all fun o => o.fields.all fun f => f.2.optional || b.2.keys.contains f.1) &&
        b.2.all fun f => isComplete r levels ((declared? b.1 f.1).map Field.schema) f.2) &&
    ((v.asList?).all fun items => (itemType? (schema.map r.resolve)).all fun item =>
      items.all fun w => isComplete r levels item w)

theorem complete_of_isComplete {levels : Nat} (h : isComplete r levels schema v = true) :
    Complete r schema v := by
  intro o fields henc
  induction henc generalizing levels with
  | here body =>
    cases levels with
    | zero => cases h
    | succ levels =>
      simp only [isComplete, body, Option.all_some, Bool.and_eq_true] at h
      intro name f hf hrequired
      have hkey := List.all_eq_true.1 h.1.1 (name, f) hf
      simpa [hrequired] using hkey
  | item list mem inner ih =>
    cases levels with
    | zero => cases h
    | succ levels =>
      simp only [isComplete, list, Value.asList?, Option.all_some, Bool.and_eq_true] at h
      exact ih (List.all_eq_true.1 h.2 _ mem)
  | field body mem _ inner ih =>
    cases levels with
    | zero => cases h
    | succ levels =>
      simp only [isComplete, body, Option.all_some, Bool.and_eq_true] at h
      exact ih (List.all_eq_true.1 h.1.2 _ mem)

/-- Datasets and workbooks have complete literals. -/
theorem Analytics.registry_completeLiterals : Analytics.registry.CompleteLiterals := by
  have hall : (registry.literals.all fun l => isComplete registry 4 (some l.1) l.2) = true := by
    decide +kernel
  exact fun s v hv => complete_of_isComplete (List.all_eq_true.1 hall _ hv.mem_literals)

namespace Encoder

/-- Where the literals of a registry are complete, encoding comes to its end: what is filled in can
be worked out, and calls go deeper than the value by no more than what the registry alone decides.
The registry of datasets and workbooks is such. -/
theorem encoding_is_bounded :
    (∀ r : Registry, r.check = .ok r → (∀ o, .object o ∈ r.types → o.fields.Distinct) →
      r.CompleteLiterals →
        (∀ f, r.FieldFilled f (r.synthesizeField f)) ∧
        ∃ K, ∀ c v schema levels, v.depth + K ≤ levels →
          encodeRootWithin r c levels v schema = (ofRegistry r c).encodeRoot v schema ∧
            (ofRegistry r c).encodeRoot v schema ≠ .error .endlessDefault) ∧
      Analytics.registry.CompleteLiterals := by
  refine ⟨fun r hcheck hkeys hlit => ⟨fun f => ?_, deepestDefault r + 2, ?_⟩,
    Analytics.registry_completeLiterals⟩
  · have hr : r.WellFormed := Registry.fault?_eq_none_iff.1 (Registry.fault?_of_check hcheck)
    exact Registry.fieldFilled_synthesizeField hr f
  · intro c v schema levels h
    exact encodeRootWithin_ofRegistry hkeys hlit (by omega)

/-- Whatever the definition, encoding a dataset or workbook comes to its end. -/
theorem encoding_is_bounded_datasets : ∃ K, ∀ c v schema levels, v.depth + K ≤ levels →
    encodeRootWithin Analytics.registry c levels v schema =
        (ofRegistry Analytics.registry c).encodeRoot v schema ∧
      (ofRegistry Analytics.registry c).encodeRoot v schema ≠ .error .endlessDefault := by
  have haccepted : Analytics.registry.check = .ok Analytics.registry := by
    rw [Registry.check, Analytics.registry_fault?]
  exact (encoding_is_bounded.1 Analytics.registry haccepted
    (fun o ho => (Analytics.registry_wellKeyed.objects o ho).distinct) encoding_is_bounded.2).2

end Encoder

end TaggedMarkup
