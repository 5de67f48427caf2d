import TaggedMarkup.Proofs.Encoding.Faults
import TaggedMarkup.Proofs.Registry.WellFormed
/-!
# Fields that are left out

An object that loses fields is filled in again, or stays without them where no type asks for them.
So what is left of a value that is encoded is encoded too, whichever fields are taken away and at
however many places, as long as every field that can be filled in has the name of an element.
-/
namespace TaggedMarkup

open Encoder

/-- The second value is the first without some fields, in any objects that are encoded under their
own type or under none. -/
inductive Value.LeavesOut (r : Registry) : Option Schema → Value → Value → Prop
  | refl (schema : Option Schema) (v : Value) : LeavesOut r schema v v
  | list {schema item : Option Schema} {xs ys : List Value}
      (hitem : itemType? (schema.map r.resolve) = some item) (length : xs.length = ys.length)
      (each : ∀ v w, (v, w) ∈ xs.zip ys → LeavesOut r item v w) :
      LeavesOut r schema (.list xs) (.list ys)
  | object {schema : Option Schema} {o : Option ObjectType} {fields left : Entries Value}
      (plain : plainType? (schema.map r.resolve) = some o)
      (sublist : left.keys.Sublist fields.keys)
      (each : ∀ key v w, (key, v) ∈ fields → (key, w) ∈ left →
        LeavesOut r ((declared? o key).map Field.schema) v w) :
      LeavesOut r schema (.object fields) (.object left)
  | payload {schema : Option Schema} {t : VariantType} {case : String} {s : Schema}
      {fields left : Entries Value} (ht : schema.map r.resolve = some (.variant t))
      (hinline : t.isInline = false) (hcase : t.case? case = some s)
      (sublist : left.keys.Sublist fields.keys)
      (each : ∀ key v w, (key, v) ∈ fields → (key, w) ∈ left →
        LeavesOut r ((declared? (r.objectOf? s) key).map Field.schema) v w) :
      LeavesOut r schema (.object [(case, .object fields)]) (.object [(case, .object left)])
  /-- The payload of a case without a name keeps its fields, but objects inside may not. -/
  | sole {schema : Option Schema} {t : VariantType} {case : String × Schema}
      {fields left : Entries Value} (ht : schema.map r.resolve = some (.variant t))
      (hnot : explicitCase? t fields = none) (hsole : t.soleCase? = some case)
      (keys : left.keys = fields.keys)
      (each : ∀ key v w, (key, v) ∈ fields → (key, w) ∈ left →
        LeavesOut r ((declared? (r.objectOf? case.2) key).map Field.schema) v w) :
      LeavesOut r schema (.object fields) (.object left)

namespace Value.LeavesOut

variable {r : Registry} {c : Convention} {schema : Option Schema} {v w : Value} {path : Path}
  {o : Option ObjectType} {fields left : Entries Value}

theorem eq_of_hasText (h : v.LeavesOut r schema w) (ht : v.hasText = true) : w = v := by
  cases h with
  | refl => rfl
  | _ => cases ht

theorem asString?_eq (h : v.LeavesOut r schema w) : v.asString? = w.asString? := by
  cases h <;> rfl

/-- A field that is encoded is encoded after what it has lost. -/
theorem fault?_encodeEntry {key : String}
    (h : v.LeavesOut r ((declared? o key).map Field.schema) w)
    (ih : ∀ verbatim path, fault? ((ofRegistry r c).encode v ((declared? o key).map Field.schema)
      verbatim path) = none → fault? ((ofRegistry r c).encode w
        ((declared? o key).map Field.schema) verbatim path) = none)
    (hv : fault? ((ofRegistry r c).encodeEntry o path key v) = none) :
    fault? ((ofRegistry r c).encodeEntry o path key w) = none := by
  obtain ⟨a, ha⟩ := fault?_eq_none_iff.1 hv
  rw [encodeEntry_eq_ok_iff] at ha
  rw [fault?_eq_none_iff]
  cases ha with
  | attr hk ht plain =>
    rw [h.eq_of_hasText (hasText_of_wireText? ht)]
    exact ⟨_, encodeEntry_eq_ok_iff.2 (.attr hk ht plain)⟩
  | text ht =>
    rw [h.eq_of_hasText (hasText_of_wireText? ht)]
    exact ⟨_, encodeEntry_eq_ok_iff.2 (.text ht)⟩
  | child hk ht =>
    obtain ⟨t, ht⟩ := fault?_eq_none_iff.1 (ih _ _ (fault?_eq_none_iff.2 ⟨_, ht⟩))
    exact ⟨_, encodeEntry_eq_ok_iff.2 (.child hk ht)⟩

/-- Fields that are encoded are encoded after what they have lost. -/
theorem fieldsFault_eq_none {skipCase skipCase' : Bool}
    (hfields : (ofRegistry r c).fieldsFault o skipCase path fields = none)
    (hown : ∀ f ∈ ownFields skipCase' left, ∃ v, (f.1, v) ∈ ownFields skipCase fields)
    (each : ∀ key v w, (key, v) ∈ fields → (key, w) ∈ left →
      fault? ((ofRegistry r c).encodeEntry o path key v) = none →
        fault? ((ofRegistry r c).encodeEntry o path key w) = none) :
    (ofRegistry r c).fieldsFault o skipCase' path left = none := by
  rw [fieldsFault, List.findSome?_eq_none_iff] at hfields ⊢
  intro f hf
  obtain ⟨v, hv⟩ := hown f hf
  exact each f.1 v f.2 (mem_ownFields.1 hv).1 (mem_ownFields.1 hf).1 (hfields _ hv)

/-- What remains of the fields has not lost its case, if it is one. -/
theorem exists_ownFields (hd : fields.Distinct) (sublist : left.keys.Sublist fields.keys)
    (each : ∀ key v w, (key, v) ∈ fields → (key, w) ∈ left → v.asString? = w.asString?)
    {f : String × Value} (hf : f ∈ ownFields (untypedCase? left o).isSome left) :
    ∃ v, (f.1, v) ∈ ownFields (untypedCase? fields o).isSome fields := by
  obtain ⟨hf, hskip⟩ := mem_ownFields.1 hf
  obtain ⟨v, hv⟩ := Entries.exists_of_mem_keys (sublist.subset (Entries.mem_keys_of_mem hf))
  refine ⟨v, mem_ownFields.2 ⟨hv, fun hcase hkey => hskip ?_ hkey⟩⟩
  have hleft : Entries.get? left Marker.untypedCase = some f.2 :=
    (Entries.get?_eq_some_iff (hd.sublist sublist)).2 (hkey ▸ hf)
  have hfields : Entries.get? fields Marker.untypedCase = some v :=
    (Entries.get?_eq_some_iff hd).2 (hkey ▸ hv)
  have hsame : untypedCase? left o = untypedCase? fields o := by
    unfold untypedCase?
    rw [hleft, hfields, Option.bind_some, Option.bind_some, each _ v f.2 hv hf]
  rw [hsame]
  exact hcase

theorem exists_ownFields_of_subset (hkeys : left.keys ⊆ fields.keys) {f : String × Value}
    (hf : f ∈ ownFields false left) : ∃ v, (f.1, v) ∈ ownFields false fields := by
  obtain ⟨v, hv⟩ :=
    Entries.exists_of_mem_keys (hkeys (Entries.mem_keys_of_mem (mem_ownFields.1 hf).1))
  exact ⟨v, mem_ownFields.2 ⟨hv, by simp⟩⟩

/-- What is left of a value that is encoded is encoded in its place. -/
theorem fault?_encode (hr : r.WellKeyed) (hlit : EncodesLiterals r c)
    (h : v.LeavesOut r schema w) (hk : v.Keyed) {verbatim : Bool}
    (hv : fault? ((ofRegistry r c).encode v schema verbatim path) = none) :
    fault? ((ofRegistry r c).encode w schema verbatim path) = none := by
  induction h generalizing verbatim path with
  | refl => exact hv
  | @list schema item xs ys hitem length each ih =>
    have hitem' : itemType? (schema.map (ofRegistry r c).registry.resolve) = some item := hitem
    rw [fault?_list hitem', List.findSome?_eq_none_iff] at hv ⊢
    rintro ⟨w, i⟩ hw
    rw [List.mem_zipIdx_iff_getElem?] at hw
    obtain ⟨hi, hw⟩ := List.getElem?_eq_some_iff.1 hw
    have hi' : i < xs.length := length ▸ hi
    have hpair : (xs[i], w) ∈ xs.zip ys := by
      rw [List.mem_iff_getElem]
      exact ⟨i, by simp [hi, hi'], by simp [hw]⟩
    exact ih _ _ hpair (hk.of_mem_items (List.getElem_mem hi')) (hv (xs[i], i) (by
      rw [List.mem_zipIdx_iff_getElem?, List.getElem?_eq_getElem hi']))
  | object plain sublist each ih =>
    rw [fault?_plain hr hlit plain] at hv ⊢
    refine fieldsFault_eq_none hv (fun f hf => exists_ownFields hk.distinct sublist
      (fun key v w hv hw => (each key v w hv hw).asString?_eq) hf) fun key v w hv hw => ?_
    exact (each key v w hv hw).fault?_encodeEntry fun _ _ => ih key v w hv hw (hk.of_mem_fields hv)
  | @payload schema t case s fields left ht hinline hcase sublist each ih =>
    have hk' : (Value.object fields).Keyed := hk.of_mem_fields (List.mem_singleton_self _)
    rw [fault?_payload hr hlit ht hinline hcase] at hv ⊢
    refine fieldsFault_eq_none hv (fun f => exists_ownFields_of_subset sublist.subset)
      fun key v w hv hw => ?_
    exact (each key v w hv hw).fault?_encodeEntry fun _ _ =>
      ih key v w hv hw (hk'.of_mem_fields hv)
  | @sole schema t case fields left ht hnot hsole keys each ih =>
    have hnot' : explicitCase? t left = none := explicitCase?_of_keys_eq t keys ▸ hnot
    by_cases hne : left = []
    · rw [hne, encode_variant_nil (e := ofRegistry r c) ht]
      rfl
    · have hne' : fields ≠ [] := fun hnil => hne (by simpa [Entries.keys, hnil] using keys)
      rw [fault?_sole hr hlit ht hne' hnot hsole] at hv
      rw [fault?_sole hr hlit ht hne hnot' hsole]
      refine fieldsFault_eq_none hv
        (fun f => exists_ownFields_of_subset (keys ▸ List.Subset.refl _)) fun key v w hv hw => ?_
      exact (each key v w hv hw).fault?_encodeEntry fun _ _ =>
        ih key v w hv hw (hk.of_mem_fields hv)

end Value.LeavesOut

namespace Profile

/-- What is left of a value that is encoded is encoded too. -/
theorem encode_leftOut {p : Profile} {kind : String} {v w : Value} (hr : p.registry.WellKeyed)
    (hlit : EncodesLiterals p.registry p.convention) (hv : v.Keyed)
    (h : ∀ schema, p.registry.schemaFor? kind = some schema →
      v.LeavesOut p.registry (some schema) w)
    (hencoded : ∃ t, p.encodeTree kind v = .ok t) : ∃ u, p.encodeTree kind w = .ok u := by
  obtain ⟨document, hdocument⟩ := hencoded
  obtain ⟨schema, t, hschema, ht, rfl⟩ := encodeTree_eq_ok_iff.1 hdocument
  have hroot : fault? ((ofRegistry p.registry p.convention).encodeRoot w schema) = none := by
    rw [fault?_encodeRoot hr hlit]
    refine (h schema hschema).fault?_encode hr hlit hv ?_
    rw [← fault?_encodeRoot hr hlit]
    exact fault?_eq_none_iff.2 ⟨t, ht⟩
  obtain ⟨u, hu⟩ := fault?_eq_none_iff.1 hroot
  exact ⟨_, encodeTree_eq_ok_iff.2 ⟨schema, u, hschema, hu, rfl⟩⟩

/-- A dataset with a version, a criterion and a field that its type does not have. -/
def fullDataset : Value :=
  .object [
    ("version", .string "2"),
    ("criteria", .object [
      ("condition", .object [("operator", .object []), ("children", .list [])])]),
    ("note", .object [("a", .string "x"), ("b", .string "y")])]

/-- The same dataset without the version, and with less in the other two. -/
def partialDataset : Value :=
  .object [
    ("criteria", .object [("condition", .object [("children", .list [])])]),
    ("note", .object [("b", .string "y")])]

theorem fullDataset_leavesOut : fullDataset.LeavesOut Analytics.registry
    (some (.named "dataSet")) partialDataset := by
  have hcriterion : (Value.object [("condition",
      .object [("operator", .object []), ("children", .list [])])]).LeavesOut Analytics.registry
      (some (.named "criterion")) (.object [("condition", .object [("children", .list [])])]) := by
    refine .payload rfl rfl rfl (by decide) fun key v w hv hw => ?_
    obtain ⟨rfl, rfl⟩ := Prod.mk.inj (List.mem_singleton.1 hw)
    obtain rfl : v = .list [] := by simpa using hv
    exact .refl _ _
  have hnote : (Value.object [("a", .string "x"), ("b", .string "y")]).LeavesOut
      Analytics.registry none (.object [("b", .string "y")]) := by
    refine .object rfl (by decide) fun key v w hv hw => ?_
    obtain ⟨rfl, rfl⟩ := Prod.mk.inj (List.mem_singleton.1 hw)
    obtain rfl : v = .string "y" := by simpa using hv
    exact .refl _ _
  refine .object rfl (by decide) fun key v w hv hw => ?_
  simp only [List.mem_cons, Prod.mk.injEq, List.not_mem_nil, or_false] at hv hw
  obtain ⟨rfl, rfl⟩ | ⟨rfl, rfl⟩ := hw
  · obtain rfl : v = .object [("condition",
        .object [("operator", .object []), ("children", .list [])])] := by simpa using hv
    exact hcriterion
  · obtain rfl : v = .object [("a", .string "x"), ("b", .string "y")] := by simpa using hv
    exact hnote

theorem encode_leftOut_dataset : Analytics.registry.WellKeyed ∧
    EncodesLiterals Analytics.registry .standard ∧ fullDataset.Keyed ∧
    fullDataset.LeavesOut Analytics.registry (some (.named "dataSet")) partialDataset ∧
    (∃ t, Profile.encodeTree {} "dataset" fullDataset = .ok t) ∧
    ∃ u, Profile.encodeTree {} "dataset" partialDataset = .ok u := by
  have hkeyed : fullDataset.Keyed := Value.keyed_of_isKeyed _ (by decide)
  have hencoded : (Profile.encodeTree {} "dataset" fullDataset).toOption.isSome = true := by
    decide +kernel
  obtain ⟨t, ht⟩ := Option.isSome_iff_exists.1 hencoded
  rw [← eq_ok_iff_toOption] at ht
  exact ⟨Analytics.registry_wellKeyed, Analytics.registry_encodesLiterals, hkeyed,
    fullDataset_leavesOut, ⟨t, ht⟩, @encode_leftOut {} "dataset" _ _ Analytics.registry_wellKeyed
      Analytics.registry_encodesLiterals hkeyed
      (fun schema hschema => Option.some.inj hschema ▸ fullDataset_leavesOut) ⟨t, ht⟩⟩

/-- A field whose type has a field under a name that no element has. -/
def oddlyNamed : Registry where
  types := [
    .object {
      name := "part"
      fields := [("a b", { schema := .string, defaultValue := some (.string "x") })] },
    .object { name := "whole", fields := [("p", Schema.named "part")] }]
  documents := [("doc", .named "whole")]

/-- A null stands for a part that cannot be filled in where it is left out. -/
theorem oddly_named_part_refused : ¬ ∀ (p : Profile) (kind : String) (v w : Value),
    p.registry.fault? = none → EncodesLiterals p.registry p.convention → v.Keyed →
    (∀ schema, p.registry.schemaFor? kind = some schema →
      v.LeavesOut p.registry (some schema) w) →
    (∃ t, p.encodeTree kind v = .ok t) → ∃ u, p.encodeTree kind w = .ok u := by
  intro h
  have hsound : oddlyNamed.fault? = none := by
    rw [Registry.fault?, Registry.fillCycle?_eq_none_iff_unsorted.2 (by decide +kernel)]
    decide +kernel
  have hliterals : EncodesLiterals oddlyNamed .standard := by
    have hall : (oddlyNamed.literals.all fun l =>
        ((ofRegistry oddlyNamed .standard).encode l.2 (some l.1) false .root).toOption.isSome) =
          true := by
      decide +kernel
    intro s v hv
    obtain ⟨t, ht⟩ := Option.isSome_iff_exists.1 (List.all_eq_true.1 hall _ hv.mem_literals)
    exact ⟨t, eq_ok_iff_toOption.2 ht⟩
  have hleft : (Value.object [("p", .null)]).LeavesOut oddlyNamed (some (.named "whole"))
      (.object []) := .object rfl (by decide) (by simp)
  have hencoded : (Profile.encodeTree { registry := oddlyNamed } "doc"
      (.object [("p", .null)])).toOption.isSome = true := by
    decide +kernel
  have hrefused : (Profile.encodeTree { registry := oddlyNamed } "doc"
      (.object [])).toOption.isSome = false := by
    decide +kernel
  obtain ⟨t, ht⟩ := Option.isSome_iff_exists.1 hencoded
  obtain ⟨u, hu⟩ := h { registry := oddlyNamed } "doc" _ (.object []) hsound hliterals
    (Value.keyed_of_isKeyed _ (by decide))
    (fun schema hschema => Option.some.inj hschema ▸ hleft) ⟨t, eq_ok_iff_toOption.2 ht⟩
  rw [hu] at hrefused
  cases hrefused

end Profile

end TaggedMarkup
