import TaggedMarkup.Profile
import TaggedMarkup.Proofs.Markup.Reading
/-!
# Trees with distinct keys

Reading puts elements in by insertion, so no name stands twice in one element, whatever the names of
the document are made of.
-/
namespace TaggedMarkup

open Markup

namespace Tree

/-- Every element inside has distinct keys. -/
inductive Keyed : Tree → Prop
  | text (t : String) : Keyed (.text t)
  | list {items : List Tree} (each : ∀ t ∈ items, Keyed t) : Keyed (.list items)
  | map {entries : Entries Tree} (distinct : entries.Distinct)
      (each : ∀ key t, (key, t) ∈ entries → Keyed t) : Keyed (.map entries)

theorem Keyed.of_mem_elements {t u : Tree} (h : t.Keyed) (hu : u ∈ t.elements) : u.Keyed := by
  cases t with
  | list items =>
    cases h with
    | list each => exact each u hu
  | text | map => exact List.mem_singleton.1 hu ▸ h

/-- Induction that reaches the items of a list element as well as its entries. -/
@[elab_as_elim]
theorem Keyed.induction_elements {motive : Tree → Prop} {t : Tree} (h : t.Keyed)
    (text : ∀ t, motive (.text t))
    (list : ∀ items : List Tree, (∀ t ∈ items, motive t) → motive (.list items))
    (map : ∀ entries : Entries Tree, entries.Distinct →
      (∀ key t, (key, t) ∈ entries → motive t) →
      (∀ t ∈ (Entries.get? entries Marker.item).elim [] elements, motive t) →
      motive (.map entries)) : motive t := by
  have hboth : motive t ∧ ∀ u ∈ t.elements, motive u := by
    induction h with
    | text t => simp [elements, text]
    | list _ ih => exact ⟨list _ fun t ht => (ih t ht).1, fun t ht => (ih t ht).1⟩
    | @map entries distinct each ih =>
      have hmap : motive (.map entries) := by
        refine map entries distinct (fun key t ht => (ih key t ht).1) fun t ht => ?_
        cases hitem : Entries.get? entries Marker.item with
        | none => simp [hitem] at ht
        | some u =>
          rw [hitem] at ht
          exact (ih _ u (Entries.mem_of_get?_eq_some hitem)).2 t ht
      simp [elements, hmap]
  exact hboth.1

end Tree

namespace Markup

/-- Entries with distinct keys, here and in every element below. -/
def HaveKeys (entries : Entries Tree) : Prop :=
  entries.Distinct ∧ ∀ key t, (key, t) ∈ entries → t.Keyed

theorem HaveKeys.insert {entries : Entries Tree} (h : HaveKeys entries) (key : String) {t : Tree}
    (ht : t.Keyed) : HaveKeys (Entries.insert entries key t) := by
  refine ⟨Entries.distinct_insert h.1 _ _, fun k u hm => ?_⟩
  rcases Entries.mem_insert hm with hm | ⟨-, rfl⟩
  · exact h.2 k u hm
  · exact ht

theorem HaveKeys.appendChild {entries : Entries Tree} (h : HaveKeys entries) (name : String)
    {t : Tree} (ht : t.Keyed) : HaveKeys (appendChild entries name t) := by
  rcases appendChild_cases entries name t with he | ⟨old, hold, he⟩
  · rw [he]
    exact h.insert name ht
  · rw [he]
    refine h.insert name (.list (List.forall_mem_append.2 ⟨fun u hu => ?_, by simpa using ht⟩))
    exact (h.2 _ _ hold).of_mem_elements hu

theorem haveKeys_ofTag (name : String) (attributes : Entries String) :
    HaveKeys (Frame.ofTag name attributes).entries := by
  refine ⟨Entries.distinct_ofPairs _, fun key t ht => ?_⟩
  obtain ⟨a, -, -, rfl⟩ := exists_of_mem_ofTag ht
  exact .text _

theorem HaveKeys.close {f : Frame} (h : HaveKeys f.entries) : f.close.Keyed := by
  unfold Frame.close
  split
  · exact .text _
  · split
    · exact .map h.1 h.2
    · have hinsert := h.insert Marker.text (.text f.text)
      exact .map hinsert.1 hinsert.2

theorem kept_haveKeys : Kept (fun _ => True) (fun _ => True) Tree.Keyed HaveKeys where
  nil := ⟨List.nodup_nil, by simp⟩
  opening name attributes _ := ⟨trivial, haveKeys_ofTag name attributes⟩
  append _ name _ h _ ht := h.appendChild name ht
  close _ h := h.close

/-- What is read has distinct keys throughout. -/
theorem keyed_of_read {limit : Nat} {text : String} {t : Tree} (h : read limit text = .ok t) :
    t.Keyed := by
  obtain ⟨entries, rfl, -, hdistinct, heach⟩ := kept_haveKeys.read (fun _ _ => trivial) h
  exact .map hdistinct heach

end Markup

theorem Tree.Keyed.documentRoot {document root : Tree} (h : document.Keyed)
    (hroot : Profile.documentRoot document = .ok root) : root.Keyed := by
  cases h with
  | text t | list each => cases hroot
  | @map entries _ each =>
    simp only [Profile.documentRoot, asEntries?] at hroot
    split at hroot
    · cases hroot
    · next t hget =>
      split at hroot
      · obtain rfl := Except.ok.inj hroot
        exact each _ _ (Entries.mem_of_get?_eq_some hget)
      · cases hroot
    · cases hroot

end TaggedMarkup
