import TaggedMarkup.Proofs.Order.Encoding
import TaggedMarkup.Proofs.Profile
/-!
# Decoding in another order

Markers are looked up, fields are decoded one by one, and only a lookup tells which entries are
items. So a tree with its entries in another order asks for the same references and is decoded as
the same value up to the order of fields. With the way back, order carries no meaning on either
side.
-/
namespace TaggedMarkup

namespace Tree

variable {c : Convention} {t u : Tree} {p : EntryPath}

theorem mem_candidatesOfItems_iff {items : List Tree} :
    p ∈ candidatesOfItems c items ↔ ∃ t ∈ items, p ∈ t.candidates c := by
  induction items with
  | nil => simp [candidatesOfItems]
  | cons t rest ih => simp [candidatesOfItems, ih]

theorem candidatesOfItem_eq (entries : Entries Tree) :
    candidatesOfItem c entries = (Entries.get? entries Marker.item).elim [] (candidates c) := by
  induction entries with
  | nil => rfl
  | cons e rest ih =>
    obtain ⟨key, t⟩ := e
    rw [candidatesOfItem, Entries.get?_cons]
    split
    · rfl
    · exact ih

/-- A list element asks for what its items ask for. -/
theorem mem_candidates_iff_elements : p ∈ t.candidates c ↔ ∃ u ∈ t.elements, p ∈ u.candidates c := by
  cases t with
  | list items => exact mem_candidatesOfItems_iff
  | text | map => simp [elements]

theorem mem_candidatesOfItem_iff {entries : Entries Tree} :
    p ∈ candidatesOfItem c entries ↔
      ∃ u ∈ (Entries.get? entries Marker.item).elim [] elements, p ∈ u.candidates c := by
  rw [candidatesOfItem_eq]
  cases Entries.get? entries Marker.item with
  | none => simp
  | some t => exact mem_candidates_iff_elements

theorem mem_candidatesOfEntries_iff {entries : Entries Tree} :
    p ∈ candidatesOfEntries c entries ↔ ∃ key t, (key, t) ∈ entries ∧
      ¬ (key = Marker.variant ∨ Marker.isAttribute key = true) ∧ p ∈ t.candidates c := by
  induction entries with
  | nil => simp [candidatesOfEntries]
  | cons e rest ih =>
    obtain ⟨key, t⟩ := e
    rw [candidatesOfEntries, List.mem_append, ih]
    constructor
    · rintro (hp | ⟨k, u, hu, hk, hp⟩)
      · split at hp
        · cases hp
        · next hk => exact ⟨key, t, List.mem_cons_self, hk, hp⟩
      · exact ⟨k, u, List.mem_cons_of_mem _ hu, hk, hp⟩
    · rintro ⟨k, u, hu, hk, hp⟩
      rcases List.mem_cons.1 hu with heq | hu
      · obtain ⟨rfl, rfl⟩ := Prod.mk.inj heq
        rw [if_neg hk]
        exact .inl hp
      · exact .inr ⟨k, u, hu, hk, hp⟩

/-- The same references are asked for in any order. -/
theorem Reordered.mem_candidates_iff (h : t.Reordered u) :
    p ∈ t.candidates c ↔ p ∈ u.candidates c := by
  induction h with
  | refl => exact Iff.rfl
  | @list xs ys length each ih =>
    have hitems : List.Forall₂ (fun t u => p ∈ t.candidates c ↔ p ∈ u.candidates c) xs ys :=
      List.forall₂_iff_zip.2 ⟨length, fun hm => ih _ _ hm⟩
    rw [candidates, candidates, mem_candidatesOfItems_iff, mem_candidatesOfItems_iff]
    constructor
    · rintro ⟨t, ht, hp⟩
      obtain ⟨u, hu, hiff⟩ := Encoder.mem_of_forall₂_left hitems ht
      exact ⟨u, hu, hiff.1 hp⟩
    · rintro ⟨u, hu, hp⟩
      obtain ⟨t, ht, hiff⟩ := Encoder.mem_of_forall₂_right hitems hu
      exact ⟨t, ht, hiff.2 hp⟩
  | @map es fs distinct keys each ih =>
    have hentries : Entries.Reordered Reordered es fs := ⟨distinct, keys, each⟩
    have hmem : Entries.Reordered (fun t u => p ∈ t.candidates c ↔ p ∈ u.candidates c) es fs :=
      ⟨distinct, keys, ih⟩
    rw [candidates, candidates, kind?_eq hentries]
    split
    · rw [candidatesOfItem_eq, candidatesOfItem_eq]
      have hitem := hmem.lookup Marker.item
      generalize Entries.get? es Marker.item = t, Entries.get? fs Marker.item = u at hitem
      cases hitem with
      | none => exact Iff.rfl
      | some hiff => exact hiff
    · exact Iff.rfl
    · rw [mem_candidatesOfEntries_iff, mem_candidatesOfEntries_iff]
      constructor
      · rintro ⟨key, t, ht, hk, hp⟩
        obtain ⟨u, hu, hiff⟩ := hmem.exists_of_mem ht
        exact ⟨key, u, hu, hk, hiff.1 hp⟩
      · rintro ⟨key, u, hu, hk, hp⟩
        obtain ⟨t, ht, hiff⟩ := (hmem.symm fun _ _ => Iff.symm).exists_of_mem hu
        exact ⟨key, t, ht, hk, hiff.1 hp⟩

end Tree

namespace Decoder

variable {d : Decoder} {t u : Tree} {es fs : Entries Tree}

/-- Under every hint the one is decoded as the other up to order. -/
def Matches (d : Decoder) (t u : Tree) : Prop :=
  ∀ hint, (d.decode t hint).Reordered (d.decode u hint)

theorem keeps_eq_of_reordered {v w : Value} (h : v.Reordered w) : d.keeps v = d.keeps w := by
  unfold keeps
  rw [h.isEmptyContainer_eq]

theorem reordered_items {xs ys : List Tree} (h : List.Forall₂ d.Matches xs ys)
    (hint : Option Schema) : List.Forall₂ Value.Reordered
      ((xs.map fun t => d.decode t hint).filter d.keeps)
      ((ys.map fun t => d.decode t hint).filter d.keeps) := by
  induction h with
  | nil => exact .nil
  | @cons t u _ _ htu _ ih =>
    rw [List.map_cons, List.map_cons, List.filter_cons, List.filter_cons,
      keeps_eq_of_reordered (htu hint)]
    split
    · exact .cons (htu hint) ih
    · exact ih

/-- The fields decoded from entries in any order. -/
theorem reordered_decodeFields
    (h : Entries.Reordered (fun t u => t.Reordered u ∧ d.Matches t u) es fs) (skipCase : Bool)
    (o : Option ObjectType) : Entries.Reordered Value.Reordered (d.decodeFields skipCase es o)
      (d.decodeFields skipCase fs o) := by
  rw [decodeFields_eq, decodeFields_eq]
  refine h.filterMap (d.fieldValue? skipCase o) fun key t u htu => ?_
  have hvalue : (d.fieldValue o key t).Reordered (d.fieldValue o key u) := by
    unfold fieldValue
    split
    · rw [htu.1.asText?_eq]
      exact .refl _
    · exact htu.2 _
  unfold fieldValue?
  rw [keeps_eq_of_reordered hvalue]
  split
  · exact .none
  · split
    · exact .some hvalue
    · exact .none

/-- Whatever a case makes of fields, it makes of them in any order. -/
theorem reordered_asCase {f g : Option ObjectType → Entries Value}
    (h : ∀ o, Entries.Reordered Value.Reordered (f o) (g o)) (hint : Option Schema)
    (case : String) : (d.asCase hint case f).Reordered (d.asCase hint case g) := by
  have hobject : ∀ o, (Value.object (f o)).Reordered (.object (g o)) := fun o => .of_fields (h o)
  exact asCase_related rfl hobject
    (fun o => .of_fields ((h o).extend_right (List.nodup_singleton _) .refl))
    fun o => .of_fields (.singleton (hobject o))

/-- A tree is decoded in any order of its entries; so are the elements that it stands for. -/
theorem matches_and_elements_of_reordered (d : Decoder) (h : t.Reordered u) :
    d.Matches t u ∧ List.Forall₂ d.Matches t.elements u.elements := by
  -- A list element decodes what stands in its item, which may be one element or a list of them.
  induction h with
  | refl t =>
    exact ⟨fun hint => .refl _, List.forall₂_same.2 fun _ _ _ => .refl _⟩
  | @list xs ys length each ih =>
    have hitems : List.Forall₂ d.Matches xs ys :=
      List.forall₂_iff_zip.2 ⟨length, fun hm => (ih _ _ hm).1⟩
    refine ⟨fun hint => ?_, hitems⟩
    rw [decode, decode, decodeItems_eq, decodeItems_eq]
    exact .of_items (reordered_items hitems _)
  | @map es fs distinct keys each ih =>
    have hentries : Entries.Reordered Tree.Reordered es fs := ⟨distinct, keys, each⟩
    have hfields : ∀ skipCase o, Entries.Reordered Value.Reordered
        (d.decodeFields skipCase es o) (d.decodeFields skipCase fs o) := reordered_decodeFields
      ⟨distinct, keys, fun key t u ht hu => ⟨each key t u ht hu, (ih key t u ht hu).1⟩⟩
    have hitems : List.Forall₂ d.Matches ((Entries.get? es Marker.item).elim [] Tree.elements)
        ((Entries.get? fs Marker.item).elim [] Tree.elements) := by
      have helements : Entries.Reordered
          (fun t u => List.Forall₂ d.Matches t.elements u.elements) es fs :=
        ⟨distinct, keys, fun key t u ht hu => (ih key t u ht hu).2⟩
      match Entries.get? es Marker.item, Entries.get? fs Marker.item,
        helements.lookup Marker.item with
      | _, _, .none => exact .nil
      | _, _, .some h => exact h
    have hmap : d.Matches (.map es) (.map fs) := by
      intro hint
      have htext : kindText es = kindText fs :=
        congrArg (Option.getD · "") (Tree.Reordered.text_eq hentries Marker.text)
      rw [decode, decode, Tree.Reordered.kind?_eq hentries,
        Tree.Reordered.variantMarker?_eq hentries, htext]
      split
      · exact .refl _
      · rw [decodeItem_eq, decodeItem_eq]
        exact .of_items (reordered_items hitems _)
      · exact .refl _
      · exact .refl _
      · exact .of_fields (hfields _ _)
      · exact reordered_asCase (fun o => hfields true o) hint _
    exact ⟨hmap, .cons hmap .nil⟩

theorem reordered_decodeDocument (d : Decoder) (h : t.Reordered u) (schema : Schema) :
    (d.decodeDocument t schema).Reordered (d.decodeDocument u schema) := by
  have hvalue := (matches_and_elements_of_reordered d h).1 (some schema)
  unfold decodeDocument
  revert hvalue
  generalize d.decode t (some schema) = v, d.decode u (some schema) = w
  intro hvalue
  cases hvalue with
  | refl => exact .refl _
  | object distinct keys each => exact .object distinct keys each
  | list length each => exact .of_fields (.singleton (.list length each))

end Decoder

/-! ## Whole definitions -/

namespace Profile

variable (p : Profile) {kind : String}

theorem exists_encodeTree_of_reordered {v w : Value} (h : v.Reordered w) {t : Tree}
    (ht : p.encodeTree kind v = .ok t) : ∃ u, p.encodeTree kind w = .ok u ∧ t.Reordered u := by
  obtain ⟨schema, root, hschema, hroot, rfl⟩ := encodeTree_eq_ok_iff.1 ht
  obtain ⟨root', hroot', hrel⟩ := Encoder.exists_encodeRoot h hroot
  exact ⟨_, encodeTree_eq_ok_iff.2 ⟨schema, root', hschema, hroot', rfl⟩,
    .of_entries (.singleton hrel)⟩

/-- Values that differ in the order of fields alone are both encoded, as trees that differ in the
order of entries alone, or both refused. Such trees ask for the same references, and whatever these
resolve to, they are decoded as values that differ in the order of fields alone. -/
theorem order_irrelevant (kind : String) :
    (∀ v w : Value, v.Reordered w →
      ((∃ t, p.encodeTree kind v = .ok t) ↔ ∃ u, p.encodeTree kind w = .ok u) ∧
      ∀ t u, p.encodeTree kind v = .ok t → p.encodeTree kind w = .ok u → t.Reordered u) ∧
    ∀ t u : Tree, t.Reordered u →
      (∀ q, q ∈ t.candidates p.convention ↔ q ∈ u.candidates p.convention) ∧
      ∀ resolutions,
        (∀ hint, ((p.decoder resolutions).decode t hint).Reordered
          ((p.decoder resolutions).decode u hint)) ∧
        ∀ schema, ((p.decoder resolutions).decodeDocument t schema).Reordered
          ((p.decoder resolutions).decodeDocument u schema) := by
  refine ⟨fun v w h => ⟨⟨?_, ?_⟩, fun t u ht hu => ?_⟩, fun t u h => ⟨fun q => h.mem_candidates_iff,
    fun resolutions => ⟨?_, fun schema => ?_⟩⟩⟩
  · rintro ⟨t, ht⟩
    obtain ⟨u, hu, -⟩ := p.exists_encodeTree_of_reordered h ht
    exact ⟨u, hu⟩
  · rintro ⟨u, hu⟩
    obtain ⟨t, ht, -⟩ := p.exists_encodeTree_of_reordered h.symm hu
    exact ⟨t, ht⟩
  · obtain ⟨u', hu', htu⟩ := p.exists_encodeTree_of_reordered h ht
    exact Except.ok.inj (hu'.symm.trans hu) ▸ htu
  · exact (Decoder.matches_and_elements_of_reordered (p.decoder resolutions) h).1
  · exact Decoder.reordered_decodeDocument (p.decoder resolutions) h schema

/-- A filter with a note and no caption, either one first. -/
theorem order_irrelevant_filter :
    ∃ t u, ({} : Profile).encodeTree "dataset" (.object [("criteria", .object [("filter", .object
        [("note", .string "custcollectiontranslations_a.b"), ("caption", .null)])])]) = .ok t ∧
      ({} : Profile).encodeTree "dataset" (.object [("criteria", .object [("filter", .object
        [("caption", .null), ("note", .string "custcollectiontranslations_a.b")])])]) = .ok u ∧
      t.Reordered u ∧ (∀ q, q ∈ t.candidates .standard ↔ q ∈ u.candidates .standard) ∧
      ∀ schema, ((({} : Profile).decoder ⟨[]⟩).decodeDocument t schema).Reordered
        ((({} : Profile).decoder ⟨[]⟩).decodeDocument u schema) := by
  have hdistinct : Entries.Distinct [("note", Value.string "custcollectiontranslations_a.b"),
      ("caption", .null)] := by simp [Entries.Distinct, Entries.keys]
  have hfilter : (Value.object [("note", .string "custcollectiontranslations_a.b"),
      ("caption", .null)]).Reordered (.object [("caption", .null),
        ("note", .string "custcollectiontranslations_a.b")]) :=
    .of_fields (.of_perm .refl hdistinct (.swap _ _ _))
  obtain ⟨hencode, hdecode⟩ := ({} : Profile).order_irrelevant "dataset"
  obtain ⟨hiff, htrees⟩ := hencode (.object [("criteria", .object [("filter", _)])])
    (.object [("criteria", .object [("filter", _)])])
    (.of_fields (.singleton (.of_fields (.singleton hfilter))))
  obtain ⟨t, ht⟩ : ∃ t, ({} : Profile).encodeTree "dataset" (.object [("criteria", .object
      [("filter", .object [("note", .string "custcollectiontranslations_a.b"),
        ("caption", .null)])])]) = .ok t := ⟨_, rfl⟩
  obtain ⟨u, hu⟩ := hiff.1 ⟨t, ht⟩
  have htu := htrees t u ht hu
  obtain ⟨hcandidates, hvalues⟩ := hdecode t u htu
  exact ⟨t, u, ht, hu, htu, hcandidates, (hvalues ⟨[]⟩).2⟩

end Profile

end TaggedMarkup
