import Mathlib.Data.List.Forall2
import Mathlib.Data.List.Perm.Subperm
import TaggedMarkup.Proofs.Entries
import TaggedMarkup.Value
/-!
# Equality up to the order of fields

Two objects with distinct keys are the same if they have the same keys and the same values under
them.
-/
namespace TaggedMarkup.Value

theorem sameItems_iff {xs ys : List Value} :
    sameItems xs ys = true ↔ List.Forall₂ (fun x y => x.same y = true) xs ys := by
  induction xs generalizing ys with
  | nil => cases ys <;> simp [sameItems]
  | cons x xs ih => cases ys <;> simp [sameItems, ih]

theorem sameFields_iff {es fs : Entries Value} :
    sameFields es fs = true ↔
      ∀ key v, (key, v) ∈ es → ∃ w, Entries.get? fs key = some w ∧ v.same w = true := by
  induction es with
  | nil => simp [sameFields]
  | cons e rest ih =>
    obtain ⟨key, v⟩ := e
    rw [sameFields, Bool.and_eq_true, ih]
    constructor
    · rintro ⟨hv, hrest⟩ k w hm
      rcases List.mem_cons.1 hm with he | hm
      · obtain ⟨rfl, rfl⟩ := Prod.mk.inj he
        split at hv
        · next u hu => exact ⟨u, hu, hv⟩
        · cases hv
      · exact hrest k w hm
    · intro h
      obtain ⟨w, hw, hsame⟩ := h key v List.mem_cons_self
      rw [hw]
      exact ⟨hsame, fun k u hm => h k u (List.mem_cons_of_mem _ hm)⟩

theorem same_object_iff {es fs : Entries Value} (he : es.Distinct) (hf : fs.Distinct) :
    (Value.object es).same (.object fs) = true ↔
      (∀ key v, (key, v) ∈ es → ∃ w, Entries.get? fs key = some w ∧ v.same w = true) ∧
        ∀ key ∈ fs.keys, key ∈ es.keys := by
  have hlength : ∀ gs : Entries Value, gs.keys.length = gs.length := fun gs => by
    simp [Entries.keys]
  have hsub : (∀ key v, (key, v) ∈ es → ∃ w, Entries.get? fs key = some w ∧ v.same w = true) →
      es.keys ⊆ fs.keys := by
    intro h key hk
    obtain ⟨v, hv⟩ := Entries.exists_of_mem_keys hk
    obtain ⟨w, hw, -⟩ := h key v hv
    exact Entries.mem_keys_of_mem (Entries.mem_of_get?_eq_some hw)
  rw [same, Bool.and_eq_true, sameFields_iff, beq_iff_eq, ← hlength, ← hlength]
  constructor
  · rintro ⟨hl, h⟩
    exact ⟨h, fun key hk =>
      ((List.subperm_of_subset he (hsub h)).perm_of_length_le (Nat.le_of_eq hl.symm)).symm.subset hk⟩
  · rintro ⟨h, hkeys⟩
    have hle := (List.subperm_of_subset he (hsub h)).length_le
    have hge := (List.subperm_of_subset hf hkeys).length_le
    exact ⟨by omega, h⟩

/-- Values that are the same are empty together. -/
theorem isEmptyContainer_of_same {v w : Value} (h : v.same w = true) :
    v.isEmptyContainer = w.isEmptyContainer := by
  cases v with
  | object es =>
    cases w with
    | object fs =>
      rw [same, Bool.and_eq_true, beq_iff_eq] at h
      cases es <;> cases fs <;> simp_all [isEmptyContainer]
    | _ => simp [same] at h
  | list xs =>
    cases w with
    | list ys =>
      rw [same, sameItems_iff] at h
      cases h <;> rfl
    | _ => simp [same] at h
  | _ => cases w <;> simp_all [same, isEmptyContainer]

theorem same_self_of_isScalar {v : Value} (h : v.scalarText?.isSome = true) : v.same v = true := by
  cases v with
  | number n => exact n.same_refl
  | bool b => simp [same]
  | string t => simp [same]
  | _ => cases h

theorem same_reference (r : Reference) : (Value.reference r).same (.reference r) = true := by
  simp [same]

end TaggedMarkup.Value
