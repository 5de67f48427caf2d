import Mathlib.Data.List.Forall2
import TaggedMarkup.Proofs.Decoding.ReadBack
/-!
# Values and trees in another order

Two values are reordered if one becomes the other by putting the fields of objects, at any depth,
into another order; for trees it is the entries of elements. Entries with distinct keys are
reordered exactly if every lookup finds related values in both, or nothing in either, so insertions
keep them so.
-/
namespace TaggedMarkup

namespace Entries

variable {α β : Type} {R : α → α → Prop} {es fs : Entries α}

/-- The same keys in some order, each once, and related values under each. -/
structure Reordered (R : α → α → Prop) (es fs : Entries α) : Prop where
  distinct : es.Distinct
  keys : es.keys.Perm fs.keys
  each : ∀ key a b, (key, a) ∈ es → (key, b) ∈ fs → R a b

namespace Reordered

theorem distinct_right (h : Reordered R es fs) : fs.Distinct := h.keys.nodup_iff.1 h.distinct

/-- A lookup finds related values, or nothing on both sides. -/
theorem lookup (h : Reordered R es fs) (key : String) :
    Option.Rel R (get? es key) (get? fs key) := by
  cases ha : get? es key with
  | none =>
    have hb : get? fs key = none := by
      rw [get?_eq_none_iff, ← h.keys.mem_iff, ← get?_eq_none_iff]
      exact ha
    rw [hb]
    exact .none
  | some a =>
    have hmem := mem_of_get?_eq_some ha
    obtain ⟨b, hb⟩ := exists_of_mem_keys (h.keys.mem_iff.1 (mem_keys_of_mem hmem))
    rw [(get?_eq_some_iff h.distinct_right).2 hb]
    exact .some (h.each key a b hmem hb)

/-- Entries whose lookups are related are reordered. -/
theorem of_lookup (he : es.Distinct) (hf : fs.Distinct)
    (h : ∀ key, Option.Rel R (get? es key) (get? fs key)) : Reordered R es fs := by
  refine ⟨he, (List.perm_ext_iff_of_nodup he hf).2 fun key => ?_, fun key a b ha hb => ?_⟩
  · have hnone : get? es key = none ↔ get? fs key = none := by
      match get? es key, get? fs key, h key with
      | _, _, .none => exact Iff.rfl
      | _, _, .some _ => simp
    rw [get?_eq_none_iff, get?_eq_none_iff] at hnone
    exact not_iff_not.1 hnone
  · have hrel := h key
    rw [(get?_eq_some_iff he).2 ha, (get?_eq_some_iff hf).2 hb] at hrel
    cases hrel with
    | some hab => exact hab

theorem singleton {key : String} {a b : α} (hab : R a b) : Reordered R [(key, a)] [(key, b)] := by
  refine ⟨List.nodup_singleton _, .refl _, fun k x y hx hy => ?_⟩
  obtain ⟨-, rfl⟩ := Prod.mk.inj (List.mem_singleton.1 hx)
  obtain ⟨-, rfl⟩ := Prod.mk.inj (List.mem_singleton.1 hy)
  exact hab

/-- The same entries in another order. -/
theorem of_perm (hR : ∀ a, R a a) (hd : es.Distinct) (h : es.Perm fs) : Reordered R es fs := by
  refine ⟨hd, h.map Prod.fst, fun key a b ha hb => ?_⟩
  have hget := (get?_eq_some_iff hd).2 ha
  rw [(get?_eq_some_iff hd).2 (h.mem_iff.2 hb)] at hget
  exact Option.some.inj hget ▸ hR b

theorem symm (h : Reordered R es fs) (hR : ∀ a b, R a b → R b a) : Reordered R fs es :=
  ⟨h.distinct_right, h.keys.symm, fun key b a hb ha => hR a b (h.each key a b ha hb)⟩

/-- An entry has its counterpart on the other side. -/
theorem exists_of_mem (h : Reordered R es fs) {key : String} {a : α} (ha : (key, a) ∈ es) :
    ∃ b, (key, b) ∈ fs ∧ R a b := by
  obtain ⟨b, hb⟩ := exists_of_mem_keys (h.keys.mem_iff.1 (mem_keys_of_mem ha))
  exact ⟨b, hb, h.each key a b ha hb⟩

theorem insert (h : Reordered R es fs) (key : String) {a b : α} (hab : R a b) :
    Reordered R (insert es key a) (insert fs key b) := by
  refine of_lookup (distinct_insert h.distinct _ _) (distinct_insert h.distinct_right _ _)
    fun k => ?_
  rw [get?_insert, get?_insert]
  split
  · exact .some hab
  · exact h.lookup k

theorem extend (h : Reordered R es fs) (hR : ∀ a, R a a) (more : Entries α) :
    Reordered R (extend es more) (extend fs more) := by
  induction more generalizing es fs with
  | nil => exact h
  | cons e rest ih => exact ih (h.insert e.1 (hR e.2))

/-- Entries that are put before reordered ones, under which they may find their own keys. -/
theorem extend_right (h : Reordered R es fs) {before : Entries α} (hd : before.Distinct)
    (hR : ∀ a, R a a) : Reordered R (Entries.extend before es) (Entries.extend before fs) := by
  refine of_lookup (distinct_extend hd _) (distinct_extend hd _) fun key => ?_
  rw [get?_extend h.distinct, get?_extend h.distinct_right]
  match get? es key, get? fs key, h.lookup key with
  | _, _, .some hab => exact .some hab
  | _, _, .none =>
    cases get? before key with
    | none => exact .none
    | some a => exact .some (hR a)

theorem filter (h : Reordered R es fs) (p : String → Bool) :
    Reordered R (es.filter fun e => p e.1) (fs.filter fun e => p e.1) := by
  refine of_lookup (h.distinct.filter _) (h.distinct_right.filter _) fun key => ?_
  rw [get?_filter, get?_filter]
  split
  · exact h.lookup key
  · exact .none

/-- Entries that are turned into others under their own keys, or dropped. -/
theorem filterMap {S : β → β → Prop} (h : Reordered R es fs) (f : String → α → Option β)
    (hf : ∀ key a b, R a b → Option.Rel S (f key a) (f key b)) :
    Reordered S (es.filterMap fun e => (f e.1 e.2).map fun b => (e.1, b))
      (fs.filterMap fun e => (f e.1 e.2).map fun b => (e.1, b)) := by
  refine of_lookup (distinct_filterMap h.distinct f) (distinct_filterMap h.distinct_right f)
    fun key => ?_
  rw [get?_filterMap h.distinct, get?_filterMap h.distinct_right]
  match get? es key, get? fs key, h.lookup key with
  | _, _, .none => exact .none
  | _, _, .some hab => exact hf key _ _ hab

theorem length_eq (h : Reordered R es fs) : es.length = fs.length := by
  simpa [Entries.keys] using h.keys.length_eq

theorem isEmpty_eq (h : Reordered R es fs) : es.isEmpty = fs.isEmpty := by
  have hlength := h.length_eq
  cases es <;> cases fs <;> simp_all

theorem all_eq (h : Reordered R es fs) {p : α → Bool} (hp : ∀ a b, R a b → p a = p b) :
    (es.all fun e => p e.2) = fs.all fun e => p e.2 := by
  have hall : ∀ gs hs : Entries α, (∀ key b, (key, b) ∈ hs → ∃ a, (key, a) ∈ gs ∧ p a = p b) →
      (gs.all fun e => p e.2) = true → (hs.all fun e => p e.2) = true := by
    intro gs hs hback hgs
    refine List.all_eq_true.2 fun e he => ?_
    obtain ⟨a, ha, hpa⟩ := hback e.1 e.2 he
    rw [← hpa]
    exact List.all_eq_true.1 hgs _ ha
  refine Bool.eq_iff_iff.2 ⟨hall es fs fun key b hb => ?_, hall fs es fun key a ha => ?_⟩
  · obtain ⟨a, ha⟩ := exists_of_mem_keys (h.keys.mem_iff.2 (mem_keys_of_mem hb))
    exact ⟨a, ha, hp a b (h.each key a b ha hb)⟩
  · obtain ⟨b, hb, hab⟩ := h.exists_of_mem ha
    exact ⟨b, hb, (hp a b hab).symm⟩

/-- A single entry can stand in one order only. -/
theorem eq_singleton {key : String} {a : α} (h : Reordered R [(key, a)] fs) :
    ∃ b, fs = [(key, b)] ∧ R a b := by
  have hlength := h.length_eq
  obtain ⟨b, hb, hab⟩ := h.exists_of_mem (List.mem_singleton_self (key, a))
  match fs, hlength with
  | [e], _ =>
    obtain rfl := List.mem_singleton.1 hb
    exact ⟨b, rfl, hab⟩

end Reordered

end Entries

/-! ## Values -/

/-- Equal up to the order of fields. -/
inductive Value.Reordered : Value → Value → Prop
  | refl (v : Value) : Reordered v v
  | list {xs ys : List Value} (length : xs.length = ys.length)
      (each : ∀ v w, (v, w) ∈ xs.zip ys → Reordered v w) : Reordered (.list xs) (.list ys)
  | object {es fs : Entries Value} (distinct : es.Distinct) (keys : es.keys.Perm fs.keys)
      (each : ∀ key v w, (key, v) ∈ es → (key, w) ∈ fs → Reordered v w) :
      Reordered (.object es) (.object fs)

namespace Value.Reordered

variable {v w : Value}

theorem of_items {xs ys : List Value} (h : List.Forall₂ Reordered xs ys) :
    Reordered (.list xs) (.list ys) :=
  .list h.length_eq fun _ _ hm => (List.forall₂_iff_zip.1 h).2 hm

theorem of_fields {es fs : Entries Value} (h : Entries.Reordered Reordered es fs) :
    Reordered (.object es) (.object fs) := .object h.distinct h.keys h.each

theorem symm (h : v.Reordered w) : w.Reordered v := by
  induction h with
  | refl v => exact .refl v
  | @list xs ys length _ ih =>
    have hitems : List.Forall₂ (fun v w => Reordered w v) xs ys :=
      List.forall₂_iff_zip.2 ⟨length, fun hm => ih _ _ hm⟩
    exact of_items hitems.flip
  | object distinct keys _ ih =>
    exact .object (keys.nodup_iff.1 distinct) keys.symm fun key b a hb ha => ih key a b ha hb

theorem asString?_eq (h : v.Reordered w) : v.asString? = w.asString? := by
  cases h <;> rfl

theorem isEmptyContainer_eq (h : v.Reordered w) : v.isEmptyContainer = w.isEmptyContainer := by
  cases h with
  | refl => rfl
  | list length each =>
    have hitems := List.forall₂_iff_zip.2 ⟨length, fun hm => each _ _ hm⟩
    cases hitems <;> rfl
  | object distinct keys each =>
    exact (Entries.Reordered.mk (R := Reordered) distinct keys each).isEmpty_eq

end Value.Reordered

/-! ## Trees -/

/-- Equal up to the order of entries. -/
inductive Tree.Reordered : Tree → Tree → Prop
  | refl (t : Tree) : Reordered t t
  | list {xs ys : List Tree} (length : xs.length = ys.length)
      (each : ∀ t u, (t, u) ∈ xs.zip ys → Reordered t u) : Reordered (.list xs) (.list ys)
  | map {es fs : Entries Tree} (distinct : es.Distinct) (keys : es.keys.Perm fs.keys)
      (each : ∀ key t u, (key, t) ∈ es → (key, u) ∈ fs → Reordered t u) :
      Reordered (.map es) (.map fs)

namespace Tree.Reordered

variable {t u : Tree} {es fs : Entries Tree}

theorem of_items {xs ys : List Tree} (h : List.Forall₂ Reordered xs ys) :
    Reordered (.list xs) (.list ys) :=
  .list h.length_eq fun _ _ hm => (List.forall₂_iff_zip.1 h).2 hm

theorem of_entries (h : Entries.Reordered Reordered es fs) : Reordered (.map es) (.map fs) :=
  .map h.distinct h.keys h.each

theorem asText?_eq (h : t.Reordered u) : t.asText? = u.asText? := by
  cases h <;> rfl

/-- Reordered entries hold the same texts. -/
theorem text_eq (h : Entries.Reordered Reordered es fs) (key : String) :
    (Entries.get? es key).bind asText? = (Entries.get? fs key).bind asText? := by
  match Entries.get? es key, Entries.get? fs key, h.lookup key with
  | _, _, .none => rfl
  | _, _, .some htu => exact htu.asText?_eq

theorem kind?_eq (h : Entries.Reordered Reordered es fs) :
    kind? (.map es) = kind? (.map fs) :=
  congrArg (Option.bind · Kind.read?) (text_eq h Marker.kind)

theorem variantMarker?_eq (h : Entries.Reordered Reordered es fs) :
    variantMarker? (.map es) = variantMarker? (.map fs) := text_eq h Marker.variant

theorem isPlaceholder_eq (h : t.Reordered u) : t.isPlaceholder = u.isPlaceholder := by
  cases h with
  | refl => rfl
  | list => rfl
  | map distinct keys each =>
    have h := Entries.Reordered.mk (R := Reordered) distinct keys each
    have hkind : kindMarker? (.map _) = kindMarker? (.map _) := text_eq h Marker.kind
    rw [isPlaceholder, isPlaceholder, hkind]
    simp only [asEntries?, Option.any_some, h.length_eq]

end Tree.Reordered

end TaggedMarkup
