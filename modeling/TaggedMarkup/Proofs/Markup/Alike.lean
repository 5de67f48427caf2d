import TaggedMarkup.Markup.Writer
import TaggedMarkup.Proofs.Encoding.Inversion
import TaggedMarkup.Proofs.Tree.NormalForm
/-!
# Trees that are written alike

The order of attributes among the other entries, and that of the character data, does not show in
what is written. Two trees that differ no further have one text, in every layout and at every depth.
-/
namespace TaggedMarkup

open Markup

namespace Tree

/-- The trees have one text, and both say something or neither does. -/
structure Alike (t u : Tree) : Prop where
  written : ∀ layout name depth rest,
    writeElement layout name depth t rest = writeElement layout name depth u rest
  placeholder : t.isPlaceholder = u.isPlaceholder

/-- Entries of one key with trees that are written alike. -/
def AlikeEntries (a b : String × Tree) : Prop := a.1 = b.1 ∧ Alike a.2 b.2

theorem Alike.refl (t : Tree) : Alike t t := ⟨fun _ _ _ _ => rfl, rfl⟩

theorem Alike.symm {t u : Tree} (h : Alike t u) : Alike u t :=
  ⟨fun layout name depth rest => (h.written layout name depth rest).symm, h.placeholder.symm⟩

theorem Alike.trans {t u w : Tree} (h : Alike t u) (h' : Alike u w) : Alike t w :=
  ⟨fun layout name depth rest =>
    (h.written layout name depth rest).trans (h'.written layout name depth rest),
    h.placeholder.trans h'.placeholder⟩

variable {es fs : Entries Tree} {ts us : List Tree}

/-! ## Parts of an element -/

theorem writeAttributes_attributes (es : Entries Tree) :
    writeAttributes (attributes es) = writeAttributes es := by
  induction es with
  | nil => rfl
  | cons e rest ih =>
    obtain ⟨key, t⟩ := e
    unfold writeAttributes attributes at ih ⊢
    rw [List.filter_cons, List.flatMap_cons]
    cases ha : Marker.attributeName? key with
    | none => simpa [Marker.isAttribute, ha] using ih
    | some name => simpa [Marker.isAttribute, ha] using ih

theorem writeChildren_filter (layout : Layout) (depth : Nat) (es : Entries Tree) (rest : List Char) :
    writeChildren layout depth (es.filter fun e => isChild e.1) rest =
      writeChildren layout depth es rest := by
  induction es with
  | nil => rfl
  | cons e more ih =>
    obtain ⟨key, t⟩ := e
    rw [List.filter_cons]
    cases hk : isChild key with
    | true => simp only [hk, if_true, writeChildren, ih]
    | false => simp only [hk, Bool.false_eq_true, if_false, writeChildren, ih]

theorem writeChildren_eq (h : List.Forall₂ AlikeEntries es fs) (layout : Layout) (depth : Nat)
    (rest : List Char) :
    writeChildren layout depth es rest = writeChildren layout depth fs rest := by
  induction h with
  | nil => rfl
  | @cons a b es fs hab _ ih =>
    obtain ⟨key, t⟩ := a
    obtain ⟨key', u⟩ := b
    obtain ⟨rfl, halike⟩ : key = key' ∧ Alike t u := hab
    simp only [writeChildren, ih, halike.written]

theorem writeItems_eq (h : List.Forall₂ Alike ts us) (layout : Layout) (name : String)
    (depth : Nat) (rest : List Char) :
    writeItems layout name depth ts rest = writeItems layout name depth us rest := by
  induction h with
  | nil => rfl
  | cons hab _ ih => simp only [writeItems, ih, hab.written]

theorem any_isChild_eq (h : List.Forall₂ AlikeEntries (es.filter fun e => isChild e.1)
    (fs.filter fun e => isChild e.1)) :
    (es.any fun e => isChild e.1) = fs.any fun e => isChild e.1 := by
  have hany : ∀ es : Entries Tree,
      (es.any fun e => isChild e.1) = !(es.filter fun e => isChild e.1).isEmpty := by
    intro es
    induction es with
    | nil => rfl
    | cons e rest ih => cases hk : isChild e.1 <;> simp [hk, ih]
  rw [hany, hany]
  generalize es.filter (fun e => isChild e.1) = cs at h ⊢
  generalize fs.filter (fun e => isChild e.1) = ds at h ⊢
  cases h with
  | nil => rfl
  | cons _ _ => rfl

/-! ## Elements -/

/-- Whatever is no child is a text. -/
def TextsBeside (es : Entries Tree) : Prop :=
  ∀ a ∈ es, isChild a.1 = false → ∃ text, a.2 = .text text

theorem TextsBeside.cases_of_mem (hes : TextsBeside es) {a : String × Tree} (ha : a ∈ es) :
    isChild a.1 = true ∨ a ∈ Tree.attributes es ∨ entryText? es Marker.text ≠ none ∨
      entryText? es Marker.verbatim ≠ none := by
  obtain ⟨key, t⟩ := a
  cases hc : isChild key with
  | true => exact .inl rfl
  | false =>
    right
    cases hattribute : Marker.isAttribute key with
    | true => exact .inl (List.mem_filter.2 ⟨ha, hattribute⟩)
    | false =>
      right
      have htext : entryText? es key ≠ none := by
        cases hget : Entries.get? es key with
        | none => exact absurd (Entries.mem_keys_of_mem ha) (Entries.get?_eq_none_iff.1 hget)
        | some u =>
          obtain ⟨text, rfl⟩ := hes _ (Entries.mem_of_get?_eq_some hget) hc
          rw [entryText?, hget]
          exact Option.some_ne_none text
      have hmarker : key = Marker.text ∨ key = Marker.verbatim := by
        simpa [isChild, hattribute, or_iff_not_imp_left] using hc
      rcases hmarker with rfl | rfl
      · exact .inl htext
      · exact .inr htext

/-- The same attributes, children that are written alike and the same character data. -/
structure AlikeBodies (es fs : Entries Tree) : Prop where
  attributes : Tree.attributes es = Tree.attributes fs
  children : List.Forall₂ AlikeEntries (es.filter fun e => isChild e.1)
    (fs.filter fun e => isChild e.1)
  text : entryText? es Marker.text = entryText? fs Marker.text
  verbatim : entryText? es Marker.verbatim = entryText? fs Marker.verbatim

namespace AlikeBodies

theorem map (h : AlikeBodies es fs)
    (hplaceholder : (Tree.map es).isPlaceholder = (Tree.map fs).isPlaceholder) :
    Alike (.map es) (.map fs) := by
  refine ⟨fun layout name depth rest => ?_, hplaceholder⟩
  have htags : writeAttributes es = writeAttributes fs := by
    rw [← writeAttributes_attributes, h.attributes, writeAttributes_attributes]
  have hcontent : writeContent es = writeContent fs ∧ hasContent es = hasContent fs := by
    simp only [writeContent, hasContent, h.text, h.verbatim, and_self]
  have hbody : ∀ depth rest,
      writeChildren layout depth es rest = writeChildren layout depth fs rest := by
    intro depth rest
    rw [← writeChildren_filter, writeChildren_eq h.children, writeChildren_filter]
  simp only [writeElement, htags, hcontent, hbody, any_isChild_eq h.children]

theorem symm (h : AlikeBodies es fs) : AlikeBodies fs es :=
  ⟨h.attributes.symm, (h.children.imp fun _ _ hab => ⟨hab.1.symm, hab.2.symm⟩).flip, h.text.symm,
    h.verbatim.symm⟩

/-- Where nothing but children can be a placeholder, the entries are placeholders on both sides. -/
theorem isPlaceholder_of (h : AlikeBodies es fs) (hes : TextsBeside es) (hfs : TextsBeside fs)
    (hall : ∀ a ∈ fs, a.2.isPlaceholder = true) : ∀ a ∈ es, a.2.isPlaceholder = true := by
  have hchildren : ∀ a ∈ fs, isChild a.1 = true := by
    intro a ha
    by_contra hc
    obtain ⟨text, htext⟩ := hfs a ha (by simpa using hc)
    have hplaceholder := hall a ha
    rw [htext] at hplaceholder
    cases hplaceholder
  have hnone : ∀ marker, isChild marker = false → entryText? fs marker = none := by
    intro marker hm
    rw [entryText?, Entries.get?_eq_none_iff.2, Option.bind_none]
    intro hkey
    obtain ⟨t, ht⟩ := Entries.exists_of_mem_keys hkey
    rw [hchildren _ ht] at hm
    cases hm
  intro a ha
  rcases hes.cases_of_mem ha with hc | hattribute | htext | hverbatim
  · obtain ⟨b, hb, hab⟩ := Encoder.mem_of_forall₂_left h.children (List.mem_filter.2 ⟨ha, hc⟩)
    rw [hab.2.placeholder]
    exact hall b (List.mem_of_mem_filter hb)
  · obtain ⟨hmem, ha⟩ := List.mem_filter.1 (h.attributes ▸ hattribute)
    have hc := hchildren a hmem
    rw [(isChild_iff.1 hc).1] at ha
    cases ha
  · exact absurd (h.text.trans (hnone _ (by decide))) htext
  · exact absurd (h.verbatim.trans (hnone _ (by decide))) hverbatim

/-- Entries are like no entries only where there are none. -/
theorem eq_nil (h : AlikeBodies [] es) (hes : TextsBeside es) : es = [] := by
  refine List.eq_nil_iff_forall_not_mem.2 fun a ha => ?_
  rcases hes.cases_of_mem ha with hc | hattribute | htext | hverbatim
  · obtain ⟨b, hb, -⟩ := Encoder.mem_of_forall₂_right h.children (List.mem_filter.2 ⟨ha, hc⟩)
    cases hb
  · rw [← h.attributes] at hattribute
    cases hattribute
  · exact htext h.text.symm
  · exact hverbatim h.verbatim.symm

theorem cons_child (h : AlikeBodies es fs) {key : String} (hk : isChild key = true) (t : Tree) :
    AlikeBodies ((key, t) :: es) ((key, t) :: fs) := by
  obtain ⟨ha, htext, hverbatim⟩ := isChild_iff.1 hk
  obtain ⟨hattributes, hchildren, hdata, hdata'⟩ := h
  unfold Tree.attributes at hattributes
  unfold entryText? at hdata hdata'
  refine ⟨?_, ?_, ?_, ?_⟩
  · simpa [Tree.attributes, ha] using hattributes
  · have hsame : AlikeEntries (key, t) (key, t) := ⟨rfl, .refl t⟩
    simpa [hk] using ⟨hsame, hchildren⟩
  · simpa [entryText?, Entries.get?_cons, htext] using hdata
  · simpa [entryText?, Entries.get?_cons, hverbatim] using hdata'

theorem append_child (h : AlikeBodies es fs) {key : String} (hk : isChild key = true) (t : Tree) :
    AlikeBodies (es ++ [(key, t)]) (fs ++ [(key, t)]) := by
  obtain ⟨ha, htext, hverbatim⟩ := isChild_iff.1 hk
  obtain ⟨hattributes, hchildren, hdata, hdata'⟩ := h
  unfold Tree.attributes at hattributes
  have hnone : ∀ other, key ≠ other → ∀ gs : Entries Tree,
      entryText? (gs ++ [(key, t)]) other = entryText? gs other := by
    intro other hne gs
    simp [entryText?, Entries.get?_append, Entries.get?_cons, hne]
  refine ⟨?_, ?_, ?_, ?_⟩
  · simpa [Tree.attributes, ha] using hattributes
  · have hsame : List.Forall₂ AlikeEntries [(key, t)] [(key, t)] := .cons ⟨rfl, .refl t⟩ .nil
    simpa [hk] using List.rel_append hchildren hsame
  · rw [hnone _ htext, hnone _ htext, hdata]
  · rw [hnone _ hverbatim, hnone _ hverbatim, hdata']

end AlikeBodies

theorem Alike.array (h : List.Forall₂ Alike ts us) : Alike (.array ts) (.array us) := by
  cases h with
  | nil => exact .refl _
  | @cons t u ts us htu hrest =>
    have hitem : isChild Marker.item = true := by decide
    have hkind : isChild Marker.kind = false := by decide
    have hitems : AlikeEntries (Marker.item, .list (t :: ts)) (Marker.item, .list (u :: us)) :=
      ⟨rfl, fun layout name depth rest => by
        simp only [writeElement, writeItems_eq (.cons htu hrest)], rfl⟩
    have hattribute : Marker.isAttribute Marker.item = false := by decide
    refine AlikeBodies.map ⟨?_, ?_, rfl, rfl⟩ rfl
    · simp [attributes, List.filter_cons, hattribute]
    · simpa [hitem, hkind] using hitems

/-- An element of text alone is written as the text. -/
theorem Alike.text (t : String) : Alike (.text t) (.map [(Marker.text, .text t)]) := by
  have hkey : Marker.attributeName? Marker.text = none := by decide
  have hchild : isChild Marker.text = false := by decide
  have hne : Marker.text ≠ Marker.verbatim := by decide
  refine ⟨fun layout name depth rest => ?_, rfl⟩
  simp [writeElement, writeAttributes, writeContent, entryText?, Entries.get?_cons, asText?, hkey,
    hchild, hne]

/-- Documents whose root elements are written alike have one text. -/
theorem Alike.write {t u : Tree} (h : Alike t u) (layout : Layout) (name : String) :
    write layout (.map [(name, t)]) = write layout (.map [(name, u)]) := by
  simp only [Markup.write, writeDocument, writeTop, List.flatMap_cons, List.flatMap_nil, h.written]

end Tree

end TaggedMarkup
