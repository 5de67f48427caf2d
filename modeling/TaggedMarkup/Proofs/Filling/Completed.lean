import TaggedMarkup.Proofs.Filling.Saturation
import TaggedMarkup.Proofs.Order.Encoding
/-!
# Objects with all their fields

Written out, the defaults of the fields that an object leaves out become entries like the others.
So an object is encoded as its completed fields are encoded one by one, and two objects whose
completed fields agree are encoded alike, whichever of the fields are there.
-/
namespace TaggedMarkup

open Encoder

namespace Registry

variable {r : Registry} {o : ObjectType} {fields : Entries Value} {key : String}

/-- The fields of an object, with the defaults of those that it leaves out. -/
def completed (r : Registry) (o : ObjectType) (fields : Entries Value) : Entries Value :=
  fields ++ (missingFields (some o) fields.keys).map fun f => (f.1, r.synthesizeField f.2)

/-- The default that a type gives to a field. -/
def default? (r : Registry) (o : ObjectType) (key : String) : Option Value :=
  ((o.field? key).filter fun f => !f.optional).map r.synthesizeField

theorem default?_eq_some_iff {v : Value} : r.default? o key = some v ↔
    ∃ f, o.field? key = some f ∧ f.optional = false ∧ r.synthesizeField f = v := by
  simp only [default?, Option.map_eq_some_iff, Option.filter_eq_some_iff, Bool.not_eq_true',
    and_assoc]

theorem mem_missingFields_iff (ho : o.WellKeyed) {present : List String} {f : Field} :
    (key, f) ∈ missingFields (some o) present ↔
      o.field? key = some f ∧ key ∉ present ∧ f.optional = false := by
  rw [mem_missingFields, ObjectType.field?, Entries.get?_eq_some_iff ho.distinct]
  simp

theorem distinct_completed (ho : o.WellKeyed) (hd : fields.Distinct) :
    (r.completed o fields).Distinct := by
  have hmissing : (missingFields (some o) fields.keys).Distinct :=
    distinct_missingFields (by rintro _ ⟨⟩; exact ho) _
  rw [completed, Entries.Distinct, Entries.keys_append, List.nodup_append]
  refine ⟨hd, ?_, ?_⟩
  · simpa [Entries.Distinct, Entries.keys, Function.comp_def] using hmissing
  · rintro key hk other hother rfl
    obtain ⟨v, hv⟩ := Entries.exists_of_mem_keys hother
    obtain ⟨⟨name, f⟩, hf, heq⟩ := List.mem_map.1 hv
    obtain ⟨rfl, -⟩ := Prod.mk.inj heq
    exact ((mem_missingFields_iff ho).1 hf).2.1 hk

/-- A completed field is one that is there, or else a default. -/
theorem get?_completed (ho : o.WellKeyed) (fields : Entries Value) (key : String) :
    (r.completed o fields).get? key = (fields.get? key).or (r.default? o key) := by
  rw [completed, Entries.get?_append, Entries.get?_map]
  cases hv : fields.get? key with
  | some v => rfl
  | none =>
    rw [Option.none_or, Option.none_or]
    have hkey : key ∉ fields.keys := Entries.get?_eq_none_iff.1 hv
    have hmissing : (missingFields (some o) fields.keys).Distinct :=
      distinct_missingFields (by rintro _ ⟨⟩; exact ho) _
    rw [default?]
    congr 1
    ext f
    rw [Entries.get?_eq_some_iff hmissing, mem_missingFields_iff ho, Option.filter_eq_some_iff]
    simp [hkey]

end Registry

namespace Encoder

variable {r : Registry} {c : Convention} {o : ObjectType} {path : Path} {skipCase : Bool}
  {es fs : Entries Value} {entries : Entries Tree}

theorem forall₂_append_left_iff {α β : Type} {R : α → β → Prop} {as bs : List α} {cs : List β} :
    List.Forall₂ R (as ++ bs) cs ↔
      ∃ ds es, List.Forall₂ R as ds ∧ List.Forall₂ R bs es ∧ cs = ds ++ es := by
  constructor
  · intro h
    induction as generalizing cs with
    | nil => exact ⟨[], cs, .nil, h, rfl⟩
    | cons a as ih =>
      cases h with
      | cons ha h =>
        obtain ⟨ds, es, hds, hes, rfl⟩ := ih h
        exact ⟨_ :: ds, es, .cons ha hds, hes, rfl⟩
  · rintro ⟨ds, es, hds, hes, rfl⟩
    exact List.rel_append hds hes

/-- A default that is written out becomes the entry that is filled in for it. -/
theorem encodesEntry_synthesizeField_iff (hr : r.WellKeyed) (ho : .object o ∈ r.types)
    {name : String} {f : Field} (hf : o.field? name = some f) {a : String × Tree} :
    EncodesEntry (ofRegistry r c) (some o) path (name, r.synthesizeField f) a ↔
      Fills (ofRegistry r c) path (name, f) a := by
  have hmem : (name, f) ∈ o.fields := Entries.mem_of_get?_eq_some hf
  have hname : IsFieldName name := (hr.objects o ho).names name f hmem
  have hdeclared : declared? (some o) name = some f := hf
  have hfill : ∀ t, (ofRegistry r c).fill f (path.child name) = .ok t ↔ (ofRegistry r c).encode
      (r.synthesizeField f) (some f.schema) f.verbatim (path.child name) = .ok t :=
    fun t => fill_eq_ok_iff hr ho hmem
  constructor
  · intro h
    cases h with
    | attr hk _ _ => exact absurd ((isFieldName_iff.1 hname).1.symm.trans hk) (by simp)
    | text _ => exact absurd rfl (isFieldName_iff.1 hname).2.1
    | child _ ht =>
      rw [hdeclared] at ht
      exact ⟨rfl, (hfill _).2 ht⟩
  · obtain ⟨key, t⟩ := a
    rintro ⟨hkey, ht⟩
    obtain rfl : key = name := hkey
    refine .child hname ?_
    rw [hdeclared]
    exact (hfill _).1 ht

/-- The defaults of the missing fields become the entries that are filled in for them. -/
theorem forall₂_encodesEntry_missing_iff (hr : r.WellKeyed) (ho : .object o ∈ r.types)
    {filled : Entries Tree} :
    List.Forall₂ (EncodesEntry (ofRegistry r c) (some o) path)
        ((missingFields (some o) es.keys).map fun f => (f.1, r.synthesizeField f.2)) filled ↔
      List.Forall₂ (Fills (ofRegistry r c) path) (missingFields (some o) es.keys) filled := by
  have hentry : ∀ f ∈ missingFields (some o) es.keys, ∀ a,
      EncodesEntry (ofRegistry r c) (some o) path (f.1, r.synthesizeField f.2) a ↔
        Fills (ofRegistry r c) path f a := fun f hf a =>
    encodesEntry_synthesizeField_iff hr ho
      ((Registry.mem_missingFields_iff (hr.objects o ho)).1 hf).1
  rw [List.forall₂_map_left_iff]
  exact ⟨fun h => forall₂_imp_of_mem h fun f a hf _ => (hentry f hf a).1,
    fun h => forall₂_imp_of_mem h fun f a hf _ => (hentry f hf a).2⟩

/-- No default is taken for the case of an object, since its key is declared. -/
theorem ownFields_completed (ho : o.WellKeyed)
    (hcase : skipCase = true → o.field? Marker.untypedCase = none) :
    ownFields skipCase (r.completed o es) = ownFields skipCase es ++
      (missingFields (some o) es.keys).map fun f => (f.1, r.synthesizeField f.2) := by
  rw [Registry.completed, ownFields, List.filter_append]
  refine congrArg _ (List.filter_eq_self.2 fun f hf => ?_)
  obtain ⟨g, hg, rfl⟩ := List.mem_map.1 hf
  cases skipCase with
  | false => rfl
  | true =>
    have hne : g.1 ≠ Marker.untypedCase := by
      intro heq
      have hfield := ((Registry.mem_missingFields_iff ho).1 hg).1
      rw [heq, hcase rfl] at hfield
      cases hfield
    simpa using hne

/-- An object is laid out as its completed fields are encoded. -/
theorem lays_iff_encodeFields_completed (hr : r.WellKeyed) (ho : .object o ∈ r.types)
    (hcase : skipCase = true → o.field? Marker.untypedCase = none) :
    (ofRegistry r c).Lays (some o) path skipCase es entries ↔
      (ofRegistry r c).encodeFields skipCase (r.completed o es) (some o) path = .ok entries := by
  rw [encodeFields_eq_ok_iff, ownFields_completed (hr.objects o ho) hcase, forall₂_append_left_iff,
    Lays]
  simp only [forall₂_encodesEntry_missing_iff hr ho]

end Encoder

end TaggedMarkup
