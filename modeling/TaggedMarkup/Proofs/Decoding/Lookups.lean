import TaggedMarkup.Decoding
import TaggedMarkup.Proofs.Entries
import TaggedMarkup.Proofs.Reference.Resolutions
/-!
# What decoding has to look up

A decoder knows a tree if it has looked up every candidate in it. It then finds the same references
as a search of the store would, in the tree and in its parts, whatever else it has looked up.
-/
namespace TaggedMarkup

namespace Convention

/-- The reference that a text spells, if the store holds its entry. -/
def spelled? (c : Convention) (store : Store) (text : String) : Option Reference :=
  (c.parse? text).bind (c.resolve? store)

end Convention

namespace Decoder

variable {d : Decoder} {store : Store}

/-- Every candidate in a tree has been looked up. -/
def Knows (d : Decoder) (store : Store) (t : Tree) : Prop :=
  ∀ p ∈ t.candidates d.convention, d.resolutions.get? p = d.convention.resolve? store p

theorem knows_resolveAll (r : Registry) (c : Convention) (keepEmpty : Bool) (t : Tree) :
    Knows ⟨r, c, c.resolveAll store (t.candidates c), keepEmpty⟩ store t := by
  intro p hp
  simp only at hp ⊢
  rw [c.get?_resolveAll, if_pos hp]

theorem Knows.reference? {text : String} (h : d.Knows store (.text text)) :
    d.reference? text = d.convention.spelled? store text := by
  unfold Decoder.reference? Convention.spelled?
  cases hp : d.convention.parse? text with
  | none => rfl
  | some p => exact h p (by simp [Tree.candidates, hp])

theorem mem_candidatesOfItems {c : Convention} {items : List Tree} {t : Tree} (ht : t ∈ items)
    {p : EntryPath} (hp : p ∈ t.candidates c) : p ∈ Tree.candidatesOfItems c items := by
  induction items with
  | nil => simp at ht
  | cons u rest ih =>
    rw [Tree.candidatesOfItems, List.mem_append]
    rcases List.mem_cons.1 ht with rfl | ht
    · exact .inl hp
    · exact .inr (ih ht)

theorem mem_candidatesOfEntries {c : Convention} {entries : Entries Tree} {key : String}
    {t : Tree} (ht : (key, t) ∈ entries) (hv : key ≠ Marker.variant)
    (ha : Marker.isAttribute key = false) {p : EntryPath} (hp : p ∈ t.candidates c) :
    p ∈ Tree.candidatesOfEntries c entries := by
  induction entries with
  | nil => simp at ht
  | cons e rest ih =>
    obtain ⟨k, u⟩ := e
    rw [Tree.candidatesOfEntries, List.mem_append]
    rcases List.mem_cons.1 ht with he | ht
    · obtain ⟨rfl, rfl⟩ := Prod.mk.inj he
      left
      rw [if_neg (by simp [hv, ha])]
      exact hp
    · exact .inr (ih ht)

theorem Knows.of_mem_items {items : List Tree} (h : d.Knows store (.list items)) {t : Tree}
    (ht : t ∈ items) : d.Knows store t := by
  intro p hp
  exact h p (by rw [Tree.candidates]; exact mem_candidatesOfItems ht hp)

theorem Knows.of_mem_entries {entries : Entries Tree} (h : d.Knows store (.map entries))
    (hk : Tree.kind? (.map entries) = none) {key : String} {t : Tree} (ht : (key, t) ∈ entries)
    (hv : key ≠ Marker.variant) (ha : Marker.isAttribute key = false) : d.Knows store t := by
  intro p hp
  refine h p ?_
  rw [Tree.candidates, hk]
  exact mem_candidatesOfEntries ht hv ha hp

/-- A list element is known with its items. -/
theorem Knows.array {entries : Entries Tree} (h : d.Knows store (.map entries))
    (hk : Tree.kind? (.map entries) = some .array) {t : Tree}
    (ht : Entries.get? entries Marker.item = some t) : d.Knows store t := by
  have hitem : ∀ entries : Entries Tree, Entries.get? entries Marker.item = some t →
      Tree.candidatesOfItem d.convention entries = t.candidates d.convention := by
    intro entries
    induction entries with
    | nil => intro h; cases h
    | cons e rest ih =>
      obtain ⟨k, u⟩ := e
      rw [Entries.get?_cons, Tree.candidatesOfItem]
      split
      · intro h
        rw [Option.some.inj h]
      · exact ih
  intro p hp
  refine h p ?_
  rw [Tree.candidates, hk]
  simp only
  rw [hitem entries ht]
  exact hp

end Decoder

/-! ## Trees without references -/

namespace Tree

mutual

/-- No text has the shape of a reference. -/
def isInert (c : Convention) : Tree → Bool
  | .text t => (c.parse? t).isNone
  | .list items => areInert c items
  | .map entries => haveInert c entries

def areInert (c : Convention) : List Tree → Bool
  | [] => true
  | t :: rest => isInert c t && areInert c rest

def haveInert (c : Convention) : List (String × Tree) → Bool
  | [] => true
  | (_, t) :: rest => isInert c t && haveInert c rest

end

end Tree

namespace Decoder

variable (d : Decoder) (r : Resolutions)

mutual

/-- What has been looked up does not matter where nothing is to be looked up. -/
theorem decode_of_isInert (t : Tree) (hint : Option Schema) : t.isInert d.convention = true →
    ({ d with resolutions := r } : Decoder).decode t hint = d.decode t hint := by
  match t with
  | .text t =>
    intro h
    rw [Tree.isInert, Option.isNone_iff_eq_none] at h
    simp only [decode, scalar, reference?, h]
    rfl
  | .list items =>
    intro h
    rw [Tree.isInert] at h
    simp only [decode, decodeItems_of_isInert items _ h]
    rfl
  | .map entries =>
    intro h
    rw [Tree.isInert] at h
    simp only [decode, decodeItem_of_isInert entries _ h, decodeFields_of_isInert _ entries _ h]
    rfl

theorem decodeItems_of_isInert (items : List Tree) (hint : Option Schema) :
    Tree.areInert d.convention items = true →
    ({ d with resolutions := r } : Decoder).decodeItems items hint = d.decodeItems items hint := by
  match items with
  | [] => exact fun _ => rfl
  | t :: rest =>
    intro h
    rw [Tree.areInert, Bool.and_eq_true] at h
    simp only [decodeItems, decode_of_isInert t _ h.1, decodeItems_of_isInert rest _ h.2]
    rfl

theorem decodeItem_of_isInert (entries : List (String × Tree)) (hint : Option Schema) :
    Tree.haveInert d.convention entries = true →
    ({ d with resolutions := r } : Decoder).decodeItem entries hint = d.decodeItem entries hint := by
  match entries with
  | [] => exact fun _ => rfl
  | (key, .list items) :: rest =>
    intro h
    rw [Tree.haveInert, Bool.and_eq_true, Tree.isInert] at h
    simp only [decodeItem, decodeItems_of_isInert items _ h.1, decodeItem_of_isInert rest _ h.2]
  | (key, .text t) :: rest =>
    intro h
    rw [Tree.haveInert, Bool.and_eq_true] at h
    simp only [decodeItem, decode_of_isInert (.text t) _ h.1, decodeItem_of_isInert rest _ h.2]
    rfl
  | (key, .map inner) :: rest =>
    intro h
    rw [Tree.haveInert, Bool.and_eq_true] at h
    simp only [decodeItem, decode_of_isInert (.map inner) _ h.1, decodeItem_of_isInert rest _ h.2]
    rfl

theorem decodeFields_of_isInert (skipCase : Bool) (entries : List (String × Tree))
    (o : Option ObjectType) : Tree.haveInert d.convention entries = true →
    ({ d with resolutions := r } : Decoder).decodeFields skipCase entries o =
      d.decodeFields skipCase entries o := by
  match entries with
  | [] => exact fun _ => rfl
  | (key, t) :: rest =>
    intro h
    rw [Tree.haveInert, Bool.and_eq_true] at h
    simp only [decodeFields, decode_of_isInert t _ h.1, decodeFields_of_isInert _ rest _ h.2]
    rfl

end

end Decoder

end TaggedMarkup
