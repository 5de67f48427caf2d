import TaggedMarkup.Proofs.Decoding.Lookups
import TaggedMarkup.Proofs.Encoding.Inversion
import TaggedMarkup.Proofs.Tree.NormalForm
/-!
# Fields read back

What reading makes of written entries is `rereadEntries`, and `readBack` are the fields decoded from
them. Both are given by their lookups: an attribute is its text, the character data is one text, and
a child is decoded under the schema of its field and dropped if it holds nothing. A case marker
around the entries decides only what becomes of the object as a whole.
-/
namespace TaggedMarkup

open Encoder Markup

namespace Entries

variable {α β : Type} {es : Entries α} {key : String}

theorem get?_map (es : Entries α) (f : α → β) (key : String) :
    get? (es.map fun e => (e.1, f e.2)) key = (get? es key).map f := by
  induction es with
  | nil => rfl
  | cons e rest ih =>
    obtain ⟨k, a⟩ := e
    rw [List.map_cons, get?_cons, get?_cons, ih]
    split <;> rfl

/-- A map that may drop entries but keeps their keys. -/
theorem get?_filterMap (hd : es.Distinct) (f : String → α → Option β) (key : String) :
    get? (es.filterMap fun e => (f e.1 e.2).map fun b => (e.1, b)) key =
      (get? es key).bind (f key) := by
  induction es with
  | nil => rfl
  | cons e rest ih =>
    obtain ⟨k, a⟩ := e
    obtain ⟨hk, hd⟩ := distinct_cons.1 hd
    rw [List.filterMap_cons, get?_cons]
    by_cases he : k = key
    · subst he
      rw [if_pos rfl]
      cases hf : f k a with
      | none =>
        have hnone : get? rest k = none := get?_eq_none_iff.2 hk
        simp [ih hd, hnone, hf]
      | some b => simp [get?_cons, hf]
    · rw [if_neg he]
      cases hf : f k a with
      | none => exact ih hd
      | some b =>
        simp only [Option.map_some]
        rw [get?_cons, if_neg he, ih hd]

theorem distinct_filterMap (hd : es.Distinct) (f : String → α → Option β) :
    Distinct (es.filterMap fun e => (f e.1 e.2).map fun b => (e.1, b)) := by
  have hsub : (keys (es.filterMap fun e => (f e.1 e.2).map fun b => (e.1, b))).Sublist
      (keys es) := by
    induction es with
    | nil => exact List.Sublist.refl _
    | cons e rest ih =>
      obtain ⟨-, hd⟩ := distinct_cons.1 hd
      rw [List.filterMap_cons]
      cases f e.1 e.2 with
      | none => exact (ih hd).cons _
      | some b => exact (ih hd).cons_cons _
  exact List.Nodup.sublist hsub hd

end Entries

namespace Tree

/-- What reading makes of a written tree. -/
def reread (t : Tree) : Tree := t.trimmed.normal

/-- The character data that is read from written entries. -/
def readText (entries : Entries Tree) : String := content (trimmedEntries entries)

/-- What reading makes of written entries, where it leaves any. -/
def rereadEntries (entries : Entries Tree) : Entries Tree :=
  attributes entries ++ ((entries.filter fun e => isChild e.1).map fun e => (e.1, e.2.reread)) ++
    if (readText entries).isEmpty then [] else [(Marker.text, .text (readText entries))]

/-- Something stands in the tags beside character data. -/
def hasParts (entries : Entries Tree) : Bool :=
  entries.any fun e => Marker.isAttribute e.1 || isChild e.1

theorem reread_map (entries : Entries Tree) :
    (Tree.map entries).reread =
      if hasParts entries then .map (rereadEntries entries) else .text (readText entries) := by
  have hempty : (attributes entries ++ normalChildren (trimmedEntries entries)).isEmpty =
      !hasParts entries := by
    rw [normalChildren_trimmedEntries, attributes]
    induction entries with
    | nil => rfl
    | cons e rest ih =>
      unfold hasParts at ih ⊢
      cases ha : Marker.isAttribute e.1 <;> cases hc : isChild e.1 <;> simp_all
  rw [reread, trimmed, normal, attributes_trimmedEntries, element, hempty, rereadEntries,
    normalChildren_trimmedEntries, readText]
  cases hasParts entries with
  | false => rfl
  | true =>
    simp only [Bool.not_true, Bool.false_eq_true, if_false, if_true]
    split
    · simp [reread]
    · simp [reread]

/-- What is read stands for an attribute, for the elements of a name, or for the character data. -/
theorem cases_of_mem_rereadEntries {entries : Entries Tree} {key : String} {t : Tree}
    (h : (key, t) ∈ rereadEntries entries) :
    (Marker.isAttribute key = true ∧ (key, t) ∈ entries) ∨
      (isChild key = true ∧ ∃ u, (key, u) ∈ entries ∧ t = u.reread) ∨
      (key = Marker.text ∧ t = .text (readText entries) ∧ readText entries ≠ "") := by
  rcases List.mem_append.1 h with h | h
  · rcases List.mem_append.1 h with h | h
    · obtain ⟨ht, ha⟩ := List.mem_filter.1 h
      exact .inl ⟨ha, ht⟩
    · obtain ⟨⟨key, u⟩, hu, heq⟩ := List.mem_map.1 h
      obtain ⟨rfl, rfl⟩ := Prod.mk.inj heq
      obtain ⟨hu, hchild⟩ := List.mem_filter.1 hu
      exact .inr (.inl ⟨hchild, u, hu, rfl⟩)
  · split at h
    · cases h
    · next hne =>
      obtain ⟨rfl, rfl⟩ := Prod.mk.inj (List.mem_singleton.1 h)
      exact .inr (.inr ⟨rfl, rfl, by simpa using hne⟩)

theorem get?_rereadEntries (entries : Entries Tree) (key : String) :
    Entries.get? (rereadEntries entries) key =
      if Marker.isAttribute key then Entries.get? entries key
      else if key = Marker.text then
        if (readText entries).isEmpty then none else some (.text (readText entries))
      else if key = Marker.verbatim then none
      else (Entries.get? entries key).map reread := by
  have htext : Entries.get? (if (readText entries).isEmpty then []
      else [(Marker.text, Tree.text (readText entries))]) key =
      if key = Marker.text then
        if (readText entries).isEmpty then none else some (.text (readText entries))
      else none := by
    by_cases hk : key = Marker.text
    · subst hk
      split <;> simp [Entries.get?_cons]
    · split <;> simp [Entries.get?_cons, Ne.symm hk]
  rw [rereadEntries, Entries.get?_append, Entries.get?_append, attributes,
    Entries.get?_filter entries Marker.isAttribute,
    Entries.get?_map (entries.filter fun e => isChild e.1) reread,
    Entries.get?_filter entries isChild, htext]
  cases ha : Marker.isAttribute key with
  | true =>
    have hne : key ≠ Marker.text := by
      rintro rfl
      exact absurd ha (by decide)
    have hc : isChild key = false := by simp [isChild, ha]
    simp [hne, hc]
  | false =>
    by_cases hk : key = Marker.text
    · subst hk
      have hc : isChild Marker.text = false := by decide
      simp [hc]
    · by_cases hv : key = Marker.verbatim
      · subst hv
        have hc : isChild Marker.verbatim = false := by decide
        simp [hc, hk]
      · have hc : isChild key = true := isChild_iff.2 ⟨ha, hk, hv⟩
        simp [hk, hv, hc]

theorem distinct_rereadEntries {entries : Entries Tree} (hd : entries.Distinct) :
    (rereadEntries entries).Distinct := by
  have hattributes : (attributes entries).Distinct := hd.filter _
  have hchildren : Entries.Distinct
      ((entries.filter fun e => isChild e.1).map fun e => (e.1, e.2.reread)) := by
    have hkeys : Entries.keys ((entries.filter fun e => isChild e.1).map
        fun e => (e.1, e.2.reread)) = Entries.keys (entries.filter fun e => isChild e.1) := by
      simp [Entries.keys, Function.comp_def]
    rw [Entries.Distinct, hkeys]
    exact hd.filter _
  have hchild : ∀ key ∈ Entries.keys ((entries.filter fun e => isChild e.1).map
      fun e => (e.1, e.2.reread)), isChild key = true := by
    intro key hk
    obtain ⟨t, ht⟩ := Entries.exists_of_mem_keys hk
    obtain ⟨e, he, heq⟩ := List.mem_map.1 ht
    exact (Prod.mk.inj heq).1 ▸ (List.mem_filter.1 he).2
  have hattribute : ∀ key ∈ (attributes entries).keys, Marker.isAttribute key = true := by
    intro key hk
    obtain ⟨t, ht⟩ := Entries.exists_of_mem_keys hk
    exact (List.mem_filter.1 ht).2
  rw [rereadEntries, Entries.Distinct, Entries.keys_append, Entries.keys_append]
  refine List.nodup_append.2 ⟨List.nodup_append.2 ⟨hattributes, hchildren, ?_⟩, ?_, ?_⟩
  · rintro key hk other hother rfl
    have hboth := hattribute key hk
    rw [(isChild_iff.1 (hchild key hother)).1] at hboth
    exact Bool.noConfusion hboth
  · split <;> simp
  · rintro key hk other hother rfl
    have htext : key = Marker.text := by
      split at hother <;> simp_all
    subst htext
    rcases List.mem_append.1 hk with hk | hk
    · exact absurd (hattribute _ hk) (by decide)
    · exact absurd (hchild _ hk) (by decide)

end Tree

namespace Decoder

open TaggedMarkup.Tree

variable {d : Decoder} {o : Option ObjectType}

/-- The value of an entry that is not dropped. -/
def fieldValue (d : Decoder) (o : Option ObjectType) (key : String) (t : Tree) : Value :=
  if Marker.isAttribute key then .string (t.asText?.getD "")
  else d.decode t ((declared? o key).map Field.schema)

def fieldValue? (d : Decoder) (skipCase : Bool) (o : Option ObjectType) (key : String) (t : Tree) :
    Option Value :=
  if skipCase ∧ key = Marker.variant then none
  else if d.keeps (d.fieldValue o key t) then some (d.fieldValue o key t) else none

theorem decodeFields_eq (skipCase : Bool) (entries : Entries Tree) :
    d.decodeFields skipCase entries o =
      entries.filterMap fun e => (d.fieldValue? skipCase o e.1 e.2).map fun v => (e.1, v) := by
  induction entries with
  | nil => rfl
  | cons e rest ih =>
    obtain ⟨key, t⟩ := e
    rw [decodeFields, List.filterMap_cons]
    simp only [fieldValue?]
    by_cases hskip : skipCase = true ∧ key = Marker.variant
    · rw [if_pos hskip, if_pos hskip, ih]
      rfl
    · rw [if_neg hskip, if_neg hskip]
      change (if d.keeps (d.fieldValue o key t) = true then
        (key, d.fieldValue o key t) :: d.decodeFields skipCase rest o
        else d.decodeFields skipCase rest o) = _
      split <;> rw [ih] <;> rfl

theorem decodeItems_eq (items : List Tree) (hint : Option Schema) :
    d.decodeItems items hint = (items.map fun t => d.decode t hint).filter d.keeps := by
  induction items with
  | nil => rfl
  | cons t rest ih =>
    rw [decodeItems, List.map_cons, List.filter_cons]
    split <;> rw [ih]

/-- The fields decoded from written entries; a case marker is none of them. -/
def readBack (d : Decoder) (o : Option ObjectType) (entries : Entries Tree) : Entries Value :=
  d.decodeFields true (rereadEntries entries) o

theorem distinct_readBack {entries : Entries Tree} (hd : entries.Distinct) :
    (d.readBack o entries).Distinct := by
  rw [readBack, decodeFields_eq]
  exact Entries.distinct_filterMap (distinct_rereadEntries hd) _

theorem get?_readBack {entries : Entries Tree} (hd : entries.Distinct) (key : String) :
    Entries.get? (d.readBack o entries) key =
      (Entries.get? (rereadEntries entries) key).bind (d.fieldValue? true o key) := by
  rw [readBack, decodeFields_eq]
  exact Entries.get?_filterMap (distinct_rereadEntries hd) _ key

/-- Without a case marker nothing is skipped. -/
theorem decodeFields_rereadEntries {entries : Entries Tree} (h : Marker.variant ∉ entries.keys) :
    d.decodeFields false (rereadEntries entries) o = d.readBack o entries := by
  rw [readBack, decodeFields_eq, decodeFields_eq]
  refine List.filterMap_congr fun e he => ?_
  have hne : e.1 ≠ Marker.variant := by
    intro hk
    have hmem : e.1 ∈ (rereadEntries entries).keys := Entries.mem_keys_of_mem he
    have hget := get?_rereadEntries entries e.1
    rw [hk, Entries.get?_eq_none_iff.2 h] at hget
    have hnone : Entries.get? (rereadEntries entries) Marker.variant = none := by
      rw [hget, if_neg (by decide), if_neg (by decide), if_neg (by decide)]
      rfl
    exact Entries.get?_eq_none_iff.1 hnone (hk ▸ hmem)
  simp [fieldValue?, hne]

/-! ## Elements of objects -/

/-- Only case markers stand around the entries of an object. -/
theorem readBack_around {before after entries : Entries Tree}
    (hb : ∀ a ∈ before, a.1 = Marker.variant) (ha : ∀ a ∈ after, a.1 = Marker.variant) :
    d.readBack o (before ++ entries ++ after) = d.readBack o entries := by
  have hget : ∀ key, key ≠ Marker.variant →
      Entries.get? (before ++ entries ++ after) key = Entries.get? entries key := by
    intro key hk
    have hnone : ∀ es : Entries Tree, (∀ a ∈ es, a.1 = Marker.variant) →
        Entries.get? es key = none := by
      intro es hes
      refine Entries.get?_eq_none_iff.2 fun hmem => ?_
      obtain ⟨t, ht⟩ := Entries.exists_of_mem_keys hmem
      exact hk (hes _ ht)
    rw [Entries.get?_append, Entries.get?_append, hnone before hb, hnone after ha]
    simp
  have htext : readText (before ++ entries ++ after) = readText entries := by
    simp only [readText, content_trimmedEntries, entryText?, hget Marker.text (by decide),
      hget Marker.verbatim (by decide)]
  have hattributes : ∀ es : Entries Tree, (∀ a ∈ es, a.1 = Marker.variant) →
      attributes es = [] := by
    intro es hes
    refine List.filter_eq_nil_iff.2 fun a ha => ?_
    rw [hes a ha]
    decide
  have hskipped : ∀ es : Entries Tree, (∀ a ∈ es, a.1 = Marker.variant) →
      (((es.filter fun e => isChild e.1).map fun e => (e.1, e.2.reread)).filterMap fun e =>
        (d.fieldValue? true o e.1 e.2).map fun v => (e.1, v)) = [] := by
    intro es hes
    refine List.filterMap_eq_nil_iff.2 fun e he => ?_
    obtain ⟨a, ha, rfl⟩ := List.mem_map.1 he
    simp [fieldValue?, hes a (List.mem_of_mem_filter ha)]
  rw [readBack, readBack, decodeFields_eq, decodeFields_eq, rereadEntries, rereadEntries, htext]
  simp only [attributes, List.filter_append, List.map_append, List.filterMap_append] at *
  rw [hattributes before hb, hattributes after ha, hskipped before hb, hskipped after ha]
  simp

/-- No entry spells a kind. -/
def KindFree (entries : Entries Tree) : Prop :=
  ∀ t, (Marker.kind, t) ∈ entries → ∃ text, t = .text text ∧ Kind.read? text = none

theorem kind?_reread {entries : Entries Tree} (h : KindFree entries) :
    Tree.kind? (.map (rereadEntries entries)) = none := by
  have hget : Entries.get? (rereadEntries entries) Marker.kind = Entries.get? entries Marker.kind := by
    rw [get?_rereadEntries, if_pos (by decide)]
  unfold Tree.kind? Tree.kindMarker? Tree.marker?
  simp only [Tree.asEntries?, Option.bind_some, hget]
  cases ht : Entries.get? entries Marker.kind with
  | none => rfl
  | some t =>
    obtain ⟨text, rfl, hread⟩ := h t (Entries.mem_of_get?_eq_some ht)
    simpa [Tree.asText?] using hread

theorem variantMarker?_reread (entries : Entries Tree) :
    Tree.variantMarker? (.map (rereadEntries entries)) =
      (Entries.get? entries Marker.variant).bind fun t => t.reread.asText? := by
  have hget : Entries.get? (rereadEntries entries) Marker.variant =
      (Entries.get? entries Marker.variant).map reread := by
    rw [get?_rereadEntries, if_neg (by decide), if_neg (by decide), if_neg (by decide)]
  unfold Tree.variantMarker? Tree.marker?
  simp only [Tree.asEntries?, Option.bind_some, hget]
  cases Entries.get? entries Marker.variant <;> rfl

/-- What becomes of an object with a case marker, given its fields under each type. -/
def asCase (d : Decoder) (hint : Option Schema) (case : String)
    (fields : Option ObjectType → Entries Value) : Value :=
  match hint.map d.registry.resolve with
  | some (.object o) =>
    if o.tag = some case then .object (fields (some o)) else untyped case (fields (some o))
  | some (.variant v) =>
    match v.case? case with
    | some schema =>
      if v.isInline then .object (fields (d.registry.objectOf? schema))
      else .object [(case, .object (fields (d.registry.objectOf? schema)))]
    | none => .object [(case, .object (fields none))]
  | _ => untyped case (fields none)

section

variable {hint : Option Schema} {case : String} {read : Option ObjectType → Entries Value}

theorem asCase_of_object {o : ObjectType} (h : hint.map d.registry.resolve = some (.object o)) :
    d.asCase hint case read =
      if o.tag = some case then .object (read (some o)) else untyped case (read (some o)) := by
  unfold asCase
  rw [h]

theorem asCase_of_case? {v : VariantType} {schema : Schema}
    (h : hint.map d.registry.resolve = some (.variant v)) (hc : v.case? case = some schema) :
    d.asCase hint case read =
      if v.isInline then .object (read (d.registry.objectOf? schema))
      else .object [(case, .object (read (d.registry.objectOf? schema)))] := by
  unfold asCase
  rw [h]
  simp only [hc]

theorem asCase_of_undeclared {v : VariantType}
    (h : hint.map d.registry.resolve = some (.variant v)) (hc : v.case? case = none) :
    d.asCase hint case read = .object [(case, .object (read none))] := by
  unfold asCase
  rw [h]
  simp only [hc]

/-- Only a type with parts takes a case. -/
theorem asCase_of_untyped (ho : ∀ o, hint.map d.registry.resolve ≠ some (.object o))
    (hv : ∀ v, hint.map d.registry.resolve ≠ some (.variant v)) :
    d.asCase hint case read = untyped case (read none) := by
  unfold asCase
  split
  · next o h => exact absurd h (ho o)
  · next v h => exact absurd h (hv v)
  · rfl

/-- A case relates what it makes of related fields: it puts them into an object, into an object that
names the case, or beside the case that stands for no type. -/
theorem asCase_related {R : Value → Value → Prop} {d₁ d₂ : Decoder}
    {f g : Option ObjectType → Entries Value} (hd : d₁.registry = d₂.registry)
    (hobject : ∀ o, R (.object (f o)) (.object (g o)))
    (huntyped : ∀ o, R (untyped case (f o)) (untyped case (g o)))
    (hcase : ∀ o, R (.object [(case, .object (f o))]) (.object [(case, .object (g o))])) :
    R (d₁.asCase hint case f) (d₂.asCase hint case g) := by
  unfold asCase
  rw [hd]
  split
  · split
    · exact hobject _
    · exact huntyped _
  · split
    · split
      · exact hobject _
      · exact hcase _
    · exact hcase none
  · exact huntyped none

/-- What holds of the objects that fields are put into holds of what a case makes of the fields. -/
theorem asCase_holds {P : Value → Prop} {f : Option ObjectType → Entries Value}
    (hobject : ∀ o, P (.object (f o))) (huntyped : ∀ o, P (untyped case (f o)))
    (hcase : ∀ o, P (.object [(case, .object (f o))])) : P (d.asCase hint case f) :=
  asCase_related (R := fun v _ => P v) (g := f) rfl hobject huntyped hcase

end

/-- An object without a case marker. -/
theorem decode_reread_plain {entries : Entries Tree} (hparts : hasParts entries = true)
    (hkind : KindFree entries) (hvariant : Marker.variant ∉ entries.keys) (hint : Option Schema) :
    d.decode (Tree.map entries).reread hint =
      .object (d.readBack (d.objectHint hint) entries) := by
  have hmarker : Tree.variantMarker? (.map (rereadEntries entries)) = none := by
    rw [variantMarker?_reread, Entries.get?_eq_none_iff.2 hvariant]
    rfl
  rw [reread_map, if_pos hparts, decode, kind?_reread hkind, hmarker]
  simp only
  rw [decodeFields_rereadEntries hvariant]

/-- An object with a case marker, which is trimmed as it is read. -/
theorem decode_reread_marked {entries : Entries Tree} {case : String} (hkind : KindFree entries)
    (hcase : Entries.get? entries Marker.variant = some (.text case)) (hint : Option Schema) :
    d.decode (Tree.map entries).reread hint =
      d.asCase hint (trimText case) fun o => d.readBack o entries := by
  have hmarker : Tree.variantMarker? (.map (rereadEntries entries)) = some (trimText case) := by
    rw [variantMarker?_reread, hcase]
    rfl
  have hparts : hasParts entries = true := by
    have hchild : isChild Marker.variant = true := by decide
    exact List.any_eq_true.2 ⟨_, Entries.mem_of_get?_eq_some hcase, by simp [hchild]⟩
  rw [reread_map, if_pos hparts, decode, kind?_reread hkind, hmarker]
  rfl

end Decoder

end TaggedMarkup
