import TaggedMarkup.Proofs.Stability.Scalars
/-!
# Entries that are written again

The entries of an object are read as fields, in another order where attributes or character data
stand among the children. Written again, they have the same attributes, the same character data and
children like those before, given that each child is written again.
-/
namespace TaggedMarkup

open Encoder Markup TaggedMarkup.Tree

variable {e e' : Encoder} {store : Store} {res : Resolutions} {o : Option ObjectType} {path : Path}
  {skipCase : Bool} {fields : Entries Value} {entries : Entries Tree} {key : String} {t : Tree}

/-! ## Entries of an object -/

namespace Encoder.Lays

variable (ho : ∀ u, o = some u → u.WellKeyed) (hl : e.Lays o path skipCase fields entries)

include ho hl

/-- An entry of an object is a child for a field, or a text beside the children. -/
theorem isFieldName_or_text (ht : (key, t) ∈ entries) :
    isChild key = true ∧ IsFieldName key ∨ isChild key = false ∧ ∃ text, t = .text text := by
  by_cases hk : IsFieldName key
  · exact .inl ⟨isChild_of_isFieldName hk, hk⟩
  · refine .inr ⟨?_, hl.exists_eq_text ho hk ht⟩
    cases ha : Marker.isAttribute key with
    | true => simp [isChild, ha]
    | false =>
      obtain ⟨_, _, -, -, -, rfl⟩ := hl.exists_data ho hk ha ht
      split <;> decide

theorem textsBeside : TextsBeside entries := by
  intro a ha hc
  rcases hl.isFieldName_or_text ho ha with ⟨hchild, -⟩ | ⟨-, htext⟩
  · rw [hchild] at hc
    cases hc
  · exact htext

/-- An attribute can be written again as it is. -/
theorem encodesEntry_attribute (ht : (key, t) ∈ entries) (ha : Marker.isAttribute key = true)
    (path' : Path) : EncodesEntry e' o path' (key, .string (t.asText?.getD "")) (key, t) := by
  obtain ⟨v, text, -, -, rfl, plain⟩ := hl.exists_attribute ho ha ht
  obtain ⟨name, hname⟩ := Option.isSome_iff_exists.1 ha
  exact .attr hname rfl plain

end Encoder.Lays

/-- The entry for character data. -/
def textEntries (text : String) : Entries Tree :=
  if text = "" then []
  else [(if Text.isPadded text then Marker.verbatim else Marker.text, .text text)]

theorem textEntries_of_ne {text : String} (h : text ≠ "") :
    textEntries text =
      [(if Text.isPadded text then Marker.verbatim else Marker.text, .text text)] := by
  rw [textEntries, if_neg h]

/-- The character data of an object is that of the text that is read of it. -/
theorem entryText?_of_lays (ho : ∀ u, o = some u → u.WellKeyed) (hd : fields.Distinct)
    (hl : e.Lays o path skipCase fields entries)
    (hne : ∀ v, (Marker.text, v) ∈ fields → e.wireText? v ≠ some "") {marker : String}
    (hm : marker = Marker.text ∨ marker = Marker.verbatim) :
    entryText? entries marker = entryText? (textEntries (readText entries)) marker := by
  by_cases hfield : Marker.text ∈ (ownFields skipCase fields).keys
  · obtain ⟨v, hv⟩ := Entries.exists_of_mem_keys hfield
    obtain ⟨a, ha, hrel⟩ := hl.exists_entry hv
    obtain ⟨text, ht, rfl⟩ := hrel.exists_wireText
    have hempty : text ≠ "" := fun h => hne v (List.mem_of_mem_filter hv) (h ▸ ht)
    obtain ⟨htext, hverbatim⟩ := hl.get?_data ho hd hv ht
    rw [readText_of_lays ho hd hl hv ht, textEntries_of_ne hempty]
    unfold entryText?
    rcases hm with rfl | rfl
    · rw [htext]
      split <;> rfl
    · rw [hverbatim]
      split <;> rfl
  · have hnone : marker ∉ entries.keys := by
      intro hmem
      obtain ⟨t, ht⟩ := Entries.exists_of_mem_keys hmem
      obtain ⟨v, -, hv, -⟩ := hl.exists_data ho (by rcases hm with rfl | rfl <;> decide)
        (by rcases hm with rfl | rfl <;> decide) ht
      exact hfield (Entries.mem_keys_of_mem hv)
    rw [readText_eq_empty ho hl hfield, entryText?, Entries.get?_eq_none_iff.2 hnone]
    rfl

/-! ## Entries that are read and written -/

namespace Decoder

variable {d : Decoder}

/-- Where nothing is dropped every entry is read as a field, but for the marker of the case. -/
theorem readBack_of_keeps (hkeep : d.keepEmpty = true) (hv : Marker.variant ∉ entries.keys) :
    d.readBack o entries = (rereadEntries entries).map fun a => (a.1, d.fieldValue o a.1 a.2) := by
  rw [← decodeFields_rereadEntries hv, decodeFields_eq, ← List.filterMap_eq_map]
  refine List.filterMap_congr fun a _ => ?_
  simp [fieldValue?, keeps, hkeep]

end Decoder

/-- Attributes, children and character data in this order. -/
theorem layers_apart {as cs ds : Entries Tree} (ha : ∀ a ∈ as, Marker.isAttribute a.1 = true)
    (hc : ∀ a ∈ cs, isChild a.1 = true)
    (hd : ∀ a ∈ ds, Marker.isAttribute a.1 = false ∧ isChild a.1 = false) :
    attributes (as ++ cs ++ ds) = as ∧ (as ++ cs ++ ds).filter (fun a => isChild a.1) = cs ∧
      ∀ marker, marker = Marker.text ∨ marker = Marker.verbatim →
        entryText? (as ++ cs ++ ds) marker = entryText? ds marker := by
  have hchild : ∀ a ∈ as, isChild a.1 = false := fun a hm => by simp [isChild, ha a hm]
  have hattribute : ∀ a ∈ cs, Marker.isAttribute a.1 = false := fun a hm =>
    (isChild_iff.1 (hc a hm)).1
  have hnone : ∀ {es : Entries Tree} {p : String → Bool} {marker : String},
      (∀ a ∈ es, p a.1 = true) → p marker = false → Entries.get? es marker = none := by
    intro es p marker hes hp
    refine Entries.get?_eq_none_iff.2 fun hm => ?_
    obtain ⟨t, ht⟩ := Entries.exists_of_mem_keys hm
    rw [hes _ ht] at hp
    cases hp
  refine ⟨?_, ?_, fun marker hm => ?_⟩
  · rw [attributes, List.filter_append, List.filter_append, List.filter_eq_self.2 ha,
      List.filter_eq_nil_iff.2 (by simpa using hattribute),
      List.filter_eq_nil_iff.2 fun a hm => by simp [(hd a hm).1], List.append_nil, List.append_nil]
  · rw [List.filter_append, List.filter_append, List.filter_eq_self.2 hc,
      List.filter_eq_nil_iff.2 (by simpa using hchild),
      List.filter_eq_nil_iff.2 fun a hm => by simp [(hd a hm).2], List.nil_append, List.append_nil]
  · have hmarker : Marker.isAttribute marker = false ∧ isChild marker = false := by
      rcases hm with rfl | rfl <;> decide
    rw [entryText?, Entries.get?_append, Entries.get?_append, hnone ha hmarker.1,
      hnone hc hmarker.2]
    rfl

theorem textEntries_apart (text : String) :
    ∀ a ∈ textEntries text, Marker.isAttribute a.1 = false ∧ isChild a.1 = false := by
  have hmarker : ∀ padded : Bool,
      Marker.isAttribute (if padded then Marker.verbatim else Marker.text) = false ∧
        isChild (if padded then Marker.verbatim else Marker.text) = false := by decide
  intro a ha
  rw [textEntries] at ha
  split at ha
  · cases ha
  · rw [List.mem_singleton.1 ha]
    exact hmarker _

section

variable (ho : ∀ u, o = some u → u.WellKeyed) (hd : fields.Distinct)
  (hl : e'.Lays o path skipCase fields entries)
  (hne : ∀ v, (Marker.text, v) ∈ fields → e'.wireText? v ≠ some "")
  (hknows : KnowsEntries e store res entries)

include ho hl in
theorem encodes_attributes (path' : Path) :
    List.Forall₂ (fun a b => EncodesEntry e o path' (a.1, (e.decoder res true).fieldValue o a.1 a.2) b)
      (attributes entries) (attributes entries) := by
  refine List.forall₂_same.2 fun ⟨key, t⟩ ha => ?_
  obtain ⟨ht, hk⟩ := List.mem_filter.1 ha
  rw [Decoder.fieldValue, if_pos hk]
  exact hl.encodesEntry_attribute ho ht hk path'

include ho hl in
theorem exists_encodes_child (hchild : ∀ key t, IsFieldName key → (key, t) ∈ entries →
      Rewrites e res ((declared? o key).map Field.schema) ((declared? o key).any Field.verbatim) t)
    (path' : Path) {a : String × Tree} (ha : a ∈ entries.filter fun a => isChild a.1) :
    ∃ b : String × Tree,
      EncodesEntry e o path' (a.1, (e.decoder res true).fieldValue o a.1 a.2.reread) b ∧
        AlikeEntries b a := by
  obtain ⟨key, t⟩ := a
  obtain ⟨ht, hk⟩ := List.mem_filter.1 ha
  rcases hl.isFieldName_or_text ho ht with ⟨-, hname⟩ | ⟨hnot, -⟩
  · obtain ⟨u, hu, halike⟩ := hchild key t hname ht (path'.child key)
    have hplain : Marker.isAttribute key = false := (isChild_iff.1 hk).1
    refine ⟨(key, u), .child hname ?_, rfl, halike⟩
    rw [Decoder.fieldValue, hplain]
    exact hu
  · rw [hnot] at hk
    cases hk

include ho hknows in
theorem encodes_text (path' : Path) :
    List.Forall₂ (fun a b => EncodesEntry e o path' (a.1, (e.decoder res true).fieldValue o a.1 a.2) b)
      (if (readText entries).isEmpty then [] else [(Marker.text, .text (readText entries))])
      (textEntries (readText entries)) := by
  by_cases hempty : readText entries = ""
  · rw [hempty]
    exact .nil
  · rw [if_neg (by simpa using hempty), textEntries_of_ne hempty]
    refine .cons ?_ .nil
    have hsettle : (e.decoder res true).fieldValue o Marker.text (.text (readText entries)) =
        e.settle store (readText entries) none := by
      rw [Decoder.fieldValue_text ho]
      exact scalar_eq_settle (hknows.text hempty) none
    rw [hsettle]
    exact .text (wireText?_settle _ rfl)

include ho hd hl hne hknows in
/-- What is read of the entries of an object is written as entries like them. -/
theorem exists_alikeBodies (hv : Marker.variant ∉ entries.keys)
    (hchild : ∀ key t, IsFieldName key → (key, t) ∈ entries →
      Rewrites e res ((declared? o key).map Field.schema) ((declared? o key).any Field.verbatim) t)
    (path' : Path) : ∃ fs,
      List.Forall₂ (EncodesEntry e o path') ((e.decoder res true).readBack o entries) fs ∧
        AlikeBodies fs entries := by
  obtain ⟨cs, hcs⟩ := exists_forall₂ fun a ha => exists_encodes_child ho hl hchild path' ha
  have hchildren := hcs.imp fun _ _ h => h.1
  have halike : List.Forall₂ AlikeEntries cs (entries.filter fun a => isChild a.1) :=
    (hcs.imp fun _ _ h => h.2).flip
  refine ⟨attributes entries ++ cs ++ textEntries (readText entries), ?_, ?_⟩
  · rw [Decoder.readBack_of_keeps rfl hv, List.forall₂_map_left_iff, rereadEntries]
    exact List.rel_append (List.rel_append (encodes_attributes ho hl path')
      (List.forall₂_map_left_iff.2 hchildren)) (encodes_text ho hknows path')
  · have hkeys : ∀ b ∈ cs, isChild b.1 = true := by
      intro b hb
      obtain ⟨a, ha, hab⟩ := mem_of_forall₂_left halike hb
      rw [hab.1]
      exact (List.mem_filter.1 ha).2
    obtain ⟨ha, hc, htexts⟩ := layers_apart
      (fun a (ha : a ∈ attributes entries) => (List.mem_filter.1 ha).2) hkeys
      (textEntries_apart (readText entries))
    refine ⟨ha, by rwa [hc], ?_, ?_⟩
    · rw [htexts _ (.inl rfl), entryText?_of_lays ho hd hl hne (.inl rfl)]
    · rw [htexts _ (.inr rfl), entryText?_of_lays ho hd hl hne (.inr rfl)]

end

end TaggedMarkup
