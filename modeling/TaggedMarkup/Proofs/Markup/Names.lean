import TaggedMarkup.Proofs.Markup.Reading
/-!
# Names that no tag has

Keys of entries are the names of tags, beside those of attributes and of character data. So a tree
that is read has no entry under a name that no tag of the document has.
-/
namespace TaggedMarkup

open Markup

namespace Tree

mutual

/-- No entry has this key, at any depth. -/
def lacks (name : String) : Tree → Bool
  | text _ => true
  | list items => itemsLack name items
  | map entries => entriesLack name entries

def itemsLack (name : String) : List Tree → Bool
  | [] => true
  | t :: rest => lacks name t && itemsLack name rest

def entriesLack (name : String) : List (String × Tree) → Bool
  | [] => true
  | (key, t) :: rest => key != name && lacks name t && entriesLack name rest

end

variable {name : String}

theorem itemsLack_iff {items : List Tree} :
    itemsLack name items = true ↔ ∀ t ∈ items, t.lacks name = true := by
  induction items with
  | nil => simp [itemsLack]
  | cons t rest ih => simp [itemsLack, ih]

theorem entriesLack_iff {entries : Entries Tree} : entriesLack name entries = true ↔
    ∀ key t, (key, t) ∈ entries → key ≠ name ∧ t.lacks name = true := by
  induction entries with
  | nil => simp [entriesLack]
  | cons e rest ih =>
    obtain ⟨key, t⟩ := e
    rw [entriesLack, Bool.and_eq_true, Bool.and_eq_true, ih, bne_iff_ne]
    constructor
    · rintro ⟨hhead, hrest⟩ k u hu
      rcases List.mem_cons.1 hu with he | hu
      · obtain ⟨rfl, rfl⟩ := Prod.mk.inj he
        exact hhead
      · exact hrest k u hu
    · intro h
      exact ⟨h key t List.mem_cons_self, fun k u hu => h k u (List.mem_cons_of_mem _ hu)⟩

theorem lacks_of_mem_elements {t u : Tree} (h : t.lacks name = true) (hu : u ∈ t.elements) :
    u.lacks name = true := by
  cases t with
  | list items => exact itemsLack_iff.1 h u hu
  | text | map => exact List.mem_singleton.1 hu ▸ h

theorem entriesLack_insert {entries : Entries Tree} (h : entriesLack name entries = true)
    {key : String} (hk : key ≠ name) {t : Tree} (ht : t.lacks name = true) :
    entriesLack name (Entries.insert entries key t) = true := by
  rw [entriesLack_iff] at h ⊢
  intro k u hu
  rcases Entries.mem_insert hu with hu | ⟨rfl, rfl⟩
  · exact h k u hu
  · exact ⟨hk, ht⟩

end Tree

namespace Markup

/-- A tag that opens an element of this name. -/
def Token.opens (name : String) : Token → Bool
  | opening n _ | selfClosing n _ => n == name
  | _ => false

variable {name : String}

theorem entriesLack_appendChild {entries : Entries Tree}
    (h : Tree.entriesLack name entries = true) {key : String} (hk : key ≠ name) {t : Tree}
    (ht : t.lacks name = true) : Tree.entriesLack name (appendChild entries key t) = true := by
  rcases appendChild_cases entries key t with he | ⟨old, hold, he⟩
  · rw [he]
    exact Tree.entriesLack_insert h hk ht
  · rw [he]
    refine Tree.entriesLack_insert h hk (Tree.itemsLack_iff.2
      (List.forall_mem_append.2 ⟨fun u hu => ?_, by simpa using ht⟩))
    exact Tree.lacks_of_mem_elements (Tree.entriesLack_iff.1 h key old hold).2 hu

theorem lacks_close {f : Frame} (htext : Marker.text ≠ name)
    (h : Tree.entriesLack name f.entries = true) : f.close.lacks name = true := by
  unfold Frame.close
  split
  · rfl
  · split
    · exact h
    · exact Tree.entriesLack_insert h htext rfl

theorem entriesLack_ofTag (hname : Marker.attributeName? name = none) (tag : String)
    (attributes : Entries String) :
    Tree.entriesLack name (Frame.ofTag tag attributes).entries = true := by
  refine Tree.entriesLack_iff.2 fun key t ht => ?_
  obtain ⟨a, -, rfl, rfl⟩ := exists_of_mem_ofTag ht
  refine ⟨?_, rfl⟩
  rintro rfl
  rw [Marker.attributeName?_attributeKey] at hname
  cases hname

theorem kept_lacks (hname : Marker.attributeName? name = none) (htext : Marker.text ≠ name) :
    Kept (fun token => token.opens name = false) (· ≠ name) (fun t => t.lacks name = true)
      fun entries => Tree.entriesLack name entries = true where
  nil := rfl
  opening tag attributes ht := by
    obtain ht | ht := ht <;>
      exact ⟨by simpa [Token.opens] using ht, entriesLack_ofTag hname tag attributes⟩
  append _ _ _ h hk ht := entriesLack_appendChild h hk ht
  close _ h := lacks_close htext h

/-- A tree has no entry under a name that no tag of the document has. -/
theorem lacks_of_read (hname : Marker.attributeName? name = none) (htext : Marker.text ≠ name)
    {limit : Nat} {text : String} {t : Tree}
    (ht : ∀ token ∈ Token.ofDocument text, token.opens name = false)
    (h : read limit text = .ok t) : t.lacks name = true := by
  obtain ⟨entries, rfl, -, hlacks⟩ := (kept_lacks hname htext).read ht h
  exact hlacks

end Markup

end TaggedMarkup
