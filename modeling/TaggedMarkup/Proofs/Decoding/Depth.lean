import TaggedMarkup.Proofs.Decoding.Composed
import TaggedMarkup.Proofs.Encoding.Paths
import TaggedMarkup.Proofs.Inside
import TaggedMarkup.Proofs.Markup.Limits
/-!
# How deep decoded values are

An element becomes an object or a list, and at most one object more where it names a case. Repeated
children stand in one list, which no further list holds. So a level of elements gives no more than
three levels of values.
-/
namespace TaggedMarkup

open Encoder Markup

namespace Decoder

variable {d : Decoder} {entries : Entries Tree}

theorem depth_natural (text : String) : (natural text).depth = 0 := by
  unfold natural
  split <;> rfl

theorem depth_number (text : String) : (number text).depth = 0 := by
  unfold number
  cases Number.canonical? text <;> rfl

theorem depth_bool (text : String) : (bool text).depth = 0 := by
  unfold bool
  cases canonicalBool? text <;> rfl

/-- Only an empty text stands for a structure. -/
theorem depth_scalar_of_nonempty {text : String} (h : text.isEmpty = false)
    (hint : Option Schema) : (d.scalar text hint).depth = 0 := by
  unfold scalar
  split
  · rfl
  · unfold literal
    split
    · rfl
    · exact depth_number text
    · exact depth_bool text
    all_goals simp only [h, Bool.false_eq_true, if_false, depth_natural]

theorem depth_scalar_le (text : String) (hint : Option Schema) :
    (d.scalar text hint).depth ≤ 1 := by
  cases h : text.isEmpty with
  | false => simp [depth_scalar_of_nonempty h]
  | true =>
    unfold scalar
    split
    · exact Nat.zero_le 1
    · unfold literal
      split
      · exact Nat.zero_le 1
      · simp [depth_number]
      · simp [depth_bool]
      all_goals simp [h, depth_natural, Value.depth, Value.depthOfFields, Value.depthOfItems]

/-- A field is less deep than three levels for each level of elements in its entry. -/
theorem depth_fieldValue_le (o : Option ObjectType) (key : String) {t : Tree}
    (ih : ∀ u ∈ t.elements, ∀ hint, (d.decode u hint).depth ≤ 3 * u.nesting + 1) :
    (d.fieldValue o key t).depth ≤ 3 * t.entryNesting key - 1 := by
  unfold fieldValue
  cases hkey : Marker.isAttribute key with
  | true => exact Nat.zero_le _
  | false =>
    simp only [Bool.false_eq_true, if_false]
    cases hdata : t.isData key with
    | true =>
      cases t with
      | text t =>
        have ht : t.isEmpty = false := by
          simp only [Tree.isData, hkey, Bool.false_or, Bool.and_eq_true, Bool.not_eq_true'] at hdata
          exact hdata.2
        rw [decode, depth_scalar_of_nonempty ht]
        exact Nat.zero_le _
      | _ => cases hdata
    | false =>
      have hnesting : t.entryNesting key = t.nesting + 1 := by simp [Tree.entryNesting, hdata]
      rw [hnesting]
      generalize (declared? o key).map Field.schema = hint
      cases t with
      | list items =>
        rw [decode]
        refine Nat.le_trans (Value.depth_list_le fun v hv => ?_)
          (Nat.le_refl (3 * (Tree.list items).nesting + 1 + 1))
        obtain ⟨u, hu, rfl, -⟩ := mem_decodeItems hv
        have hdepth := ih u hu ((d.itemHint hint).or hint)
        have hle := Tree.nesting_le_of_mem_elements (t := .list items) hu
        omega
      | _ =>
        have hdepth := ih _ (List.mem_singleton_self _) hint
        omega

/-- The case that an element names is one of its elements. -/
theorem Composed.depth_le {hint : Option Schema} {fields : Entries Value} {v : Value} {m : Nat}
    (h : Composed d (.map entries) hint fields v)
    (hfields : ∀ key w, (key, w) ∈ fields → w.depth ≤ 3 * m - 1)
    (hm : (Tree.map entries).nesting ≤ m) : v.depth ≤ 3 * m + 1 := by
  have hobject := Value.depth_object_le hfields
  cases h with
  | plain => omega
  | untyped case =>
    refine Nat.le_trans (Value.depth_object_le (m := 3 * m - 1) fun key w hw => ?_) (by omega)
    rcases Entries.mem_extend hw with hw | hw
    · obtain ⟨-, rfl⟩ := Prod.mk.inj (List.mem_singleton.1 hw)
      exact Nat.zero_le _
    · exact hfields key w hw
  | @case name hcase =>
    obtain ⟨t, ht, -⟩ := Option.bind_eq_some_iff.1 hcase.2.1
    have hentry := Tree.entryNesting_le (Entries.mem_of_get?_eq_some ht)
    rw [Tree.entryNesting_eq (by decide) (by decide)] at hentry
    refine Nat.le_trans (Value.depth_object_le (m := 3 * m - 1 + 1) fun key w hw => ?_) (by omega)
    obtain ⟨-, rfl⟩ := Prod.mk.inj (List.mem_singleton.1 hw)
    exact hobject

theorem depth_decode_le {t : Tree} (h : t.IsElement) (hint : Option Schema) :
    (d.decode t hint).depth ≤ 3 * t.nesting + 1 := by
  induction h generalizing hint with
  | text t =>
    rw [decode]
    exact Nat.le_trans (depth_scalar_le t hint) (by omega)
  | @map entries each ih =>
    cases hkind : Tree.kind? (.map entries) with
    | none =>
      obtain ⟨skipCase, hcomposed⟩ := exists_composed (d := d) hkind hint
      refine hcomposed.depth_le (fun key v hm => ?_) (Nat.le_refl _)
      obtain ⟨t, ht, rfl, -⟩ := mem_decodeFields hm
      have hfield :=
        depth_fieldValue_le (d := d) (d.fieldsType (.map entries) hint) key (ih key t ht)
      have hentry := Tree.entryNesting_le ht
      omega
    | some kind =>
      cases kind with
      | null =>
        rw [decode, hkind]
        exact Nat.le_add_left 1 _
      | array =>
        rw [decode, hkind]
        refine Value.depth_list_le fun v hv => ?_
        obtain ⟨u, hu, rfl, -⟩ := mem_decodeItem hv
        cases hitem : Entries.get? entries Marker.item with
        | none =>
          rw [hitem] at hu
          cases hu
        | some t =>
          rw [hitem] at hu
          have ht := Entries.mem_of_get?_eq_some hitem
          have hentry := Tree.entryNesting_le ht
          rw [Tree.entryNesting_eq (by decide) (by decide)] at hentry
          have hle := Tree.nesting_le_of_mem_elements hu
          exact Nat.le_trans (ih _ t ht u hu _) (by omega)
      | boolean =>
        rw [decode, hkind]
        simp [depth_bool]
      | string =>
        rw [decode, hkind]
        exact Nat.zero_le _

theorem depth_decodeDocument_le {root : Tree} (h : root.IsElement) (schema : Schema) :
    (d.decodeDocument root schema).depth ≤ 3 * root.nesting + 2 := by
  have hroot := depth_decode_le (d := d) h (some schema)
  unfold decodeDocument
  split
  · next fields heq =>
    rw [heq] at hroot
    omega
  · exact Nat.le_trans (Value.depth_object_le (m := 0) (by simp)) (by omega)
  · refine Value.depth_object_le fun key v hm => ?_
    obtain ⟨-, rfl⟩ := Prod.mk.inj (List.mem_singleton.1 hm)
    exact hroot

end Decoder

/-- The root is an element of its document. -/
theorem Tree.IsElement.documentRoot {document root : Tree} (h : document.IsElement)
    (hroot : Profile.documentRoot document = .ok root) :
    root.IsElement ∧ root.nesting + 1 ≤ document.nesting := by
  cases h with
  | text t => cases hroot
  | @map entries each =>
    simp only [Profile.documentRoot, asEntries?] at hroot
    split at hroot
    · cases hroot
    · next t hlist hget =>
      have ht := Entries.mem_of_get?_eq_some hget
      split at hroot
      · obtain rfl := Except.ok.inj hroot
        have hself : t ∈ t.elements := by
          cases t with
          | list items => exact absurd rfl (hlist items)
          | _ => exact List.mem_singleton_self _
        have hentry := Tree.entryNesting_le ht
        rw [Tree.entryNesting_eq (by decide) (by decide)] at hentry
        exact ⟨each _ _ ht t hself, hentry⟩
      · cases hroot
    · cases hroot

namespace Markup

/-- Reading within a limit refuses a document for its depth or reads it as any higher limit would.
The elements of what is read nest within the limit, and the value that a decoder makes of its root
nests within three times the limit. -/
theorem read_limited {limit limit' : Nat} (h : limit ≤ limit') (text : String) :
    (read limit text = .error (.tooDeep limit) ∨ read limit text = read limit' text) ∧
      ∀ document, read limit text = .ok document → document.nesting ≤ limit ∧
        ∀ root, Profile.documentRoot document = .ok root → ∀ (d : Decoder) (schema : Schema),
          (d.decodeDocument root schema).depth ≤ 3 * limit := by
  refine ⟨read_of_limit_le h text, fun document hread => ?_⟩
  have hnesting := nesting_le_of_read hread
  refine ⟨hnesting, fun root hroot d schema => ?_⟩
  obtain ⟨helement, hdocument⟩ := (isElement_of_read hread).documentRoot hroot
  have hdepth := Decoder.depth_decodeDocument_le (d := d) helement schema
  omega

/-- A case of an unnamed type under repeated fields. -/
def nestedText : String :=
  "<root><_T_>other</_T_><field>1</field><field><_T_>inner</_T_><x/></field></root>"

theorem read_limited_nested : 3 ≤ 4 ∧ ∃ document root, read 3 nestedText = .ok document ∧
    read 4 nestedText = .ok document ∧ document.nesting ≤ 3 ∧
    Profile.documentRoot document = .ok root ∧
    ∀ (d : Decoder) (schema : Schema), (d.decodeDocument root schema).depth ≤ 3 * 3 := by
  have hcheck : ((read 3 nestedText).toOption.any fun document =>
      (Profile.documentRoot document).toOption.isSome) = true := by
    decide +kernel
  simp only [Option.any_eq_true, Option.isSome_iff_exists] at hcheck
  obtain ⟨document, hdocument, root, hroot⟩ := hcheck
  rw [← Encoder.eq_ok_iff_toOption] at hdocument hroot
  obtain ⟨hlimits, hbounds⟩ := read_limited (show 3 ≤ 4 by decide) nestedText
  obtain ⟨hnesting, hdepth⟩ := hbounds document hdocument
  have hsame : read 3 nestedText = read 4 nestedText := by
    rcases hlimits with hdeep | hsame
    · cases hdeep.symm.trans hdocument
    · exact hsame
  exact ⟨by decide, document, root, hdocument, hsame ▸ hdocument, hnesting, hroot,
    hdepth root hroot⟩

end Markup

end TaggedMarkup
