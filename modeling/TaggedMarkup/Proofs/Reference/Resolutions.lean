import Mathlib.Data.Finset.Card
import Mathlib.Data.List.Dedup
import TaggedMarkup.Reference.Resolution
/-!
# Tables of outcomes

A table holds one outcome for each entry that was looked up, whatever the order and number of the
lookups. The entries that did not resolve are listed each once and in order.
-/
namespace TaggedMarkup

namespace EntryPath

/-- By collection, then by entry. -/
def order : EntryPath → EntryPath → Ordering := compareLex (compareOn collection) (compareOn entry)

/-- Comes strictly before another. -/
def Before (p q : EntryPath) : Prop := p.order q = .lt

instance (p q : EntryPath) : Decidable (p.Before q) := inferInstanceAs (Decidable (_ = _))

instance : Std.TransCmp order := inferInstanceAs (Std.TransCmp (compareLex _ _))

theorem precedes_eq (p q : EntryPath) : p.precedes q = (p.order q).isLE := rfl

theorem precedes_trans (p q r : EntryPath) (hpq : p.precedes q = true)
    (hqr : q.precedes r = true) : p.precedes r = true := by
  rw [precedes_eq] at *
  exact Std.TransCmp.isLE_trans hpq hqr

theorem precedes_total (p q : EntryPath) : (p.precedes q || q.precedes p) = true := by
  have hswap : q.order p = (p.order q).swap := Std.OrientedCmp.eq_swap
  rw [precedes_eq, precedes_eq, hswap]
  cases p.order q <;> rfl

theorem before_of_precedes {p q : EntryPath} (h : p.precedes q = true) (hne : p ≠ q) :
    p.Before q := by
  rw [precedes_eq] at h
  cases ho : p.order q with
  | lt => exact ho
  | gt => simp [ho] at h
  | eq =>
    obtain ⟨hcollection, hentry⟩ := Ordering.then_eq_eq.1 ho
    have hc : p.collection = q.collection := Std.LawfulEqOrd.eq_of_compare hcollection
    have he : p.entry = q.entry := Std.LawfulEqOrd.eq_of_compare hentry
    exact absurd (by cases p; cases q; simp_all) hne

end EntryPath

namespace Resolutions

theorem get?_insert (r : Resolutions) (p : EntryPath) (outcome : Option Reference) (q : EntryPath) :
    (r.insert p outcome).get? q = if p = q then outcome else r.get? q := by
  unfold insert get?
  rw [List.find?_append]
  by_cases h : p = q
  · subst h
    have hnone : (r.outcomes.filter fun o => o.1 ≠ p).find? (fun o => o.1 = p) = none := by
      rw [List.find?_eq_none]
      intro o ho
      have hne := (List.mem_filter.1 ho).2
      simpa using hne
    rw [hnone]
    simp
  · have hlast : [(p, outcome)].find? (fun o => o.1 = q) = none := by simp [h]
    have hrest : (r.outcomes.filter fun o => o.1 ≠ p).find? (fun o => o.1 = q) =
        r.outcomes.find? fun o => o.1 = q := by
      rw [List.find?_filter]
      congr 1
      funext o
      by_cases ho : o.1 = q
      · simp [ho, Ne.symm h]
      · simp [ho]
    rw [hrest, hlast, Option.or_none, if_neg h]

/-- Lookups that are a function of the entry; their order and number do not matter. -/
theorem get?_foldl_insert (r : Resolutions) (ps : List EntryPath)
    (f : EntryPath → Option Reference) (q : EntryPath) :
    ((ps.map fun p => (p, f p)).foldl (fun r o => r.insert o.1 o.2) r).get? q =
      if q ∈ ps then f q else r.get? q := by
  induction ps generalizing r with
  | nil => simp
  | cons p rest ih =>
    rw [List.map_cons, List.foldl_cons, ih, get?_insert]
    by_cases hr : q ∈ rest
    · simp [hr]
    · by_cases hp : p = q
      · simp [hp]
      · simp [hr, hp, Ne.symm hp]

/-- One outcome for each entry. -/
def Single (r : Resolutions) : Prop := (r.outcomes.map Prod.fst).Nodup

variable {r : Resolutions} {p q : EntryPath} {outcome other : Option Reference}

theorem mem_insert : (q, other) ∈ (r.insert p outcome).outcomes ↔
    q ≠ p ∧ (q, other) ∈ r.outcomes ∨ q = p ∧ other = outcome := by
  simp only [insert, List.mem_append, List.mem_filter, List.mem_singleton, Prod.mk.injEq,
    decide_eq_true_eq]
  exact or_congr_left and_comm

theorem Single.insert (h : r.Single) : (r.insert p outcome).Single := by
  rw [Single, Resolutions.insert, List.map_append, List.nodup_append]
  refine ⟨(List.filter_sublist.map Prod.fst).nodup h, List.nodup_singleton _, ?_⟩
  rintro q hq _ hlast rfl
  obtain ⟨o, ho, rfl⟩ := List.mem_map.1 hq
  have hne := (List.mem_filter.1 ho).2
  simp only [List.map_cons, List.map_nil, List.mem_singleton] at hlast
  simp [hlast] at hne

theorem single_foldl_insert (h : r.Single) (outcomes : List (EntryPath × Option Reference)) :
    (outcomes.foldl (fun r o => r.insert o.1 o.2) r).Single := by
  induction outcomes generalizing r with
  | nil => exact h
  | cons o rest ih => exact ih h.insert

theorem mem_foldl_insert (ps : List EntryPath) (f : EntryPath → Option Reference) :
    (q, other) ∈ ((ps.map fun p => (p, f p)).foldl (fun r o => r.insert o.1 o.2) r).outcomes ↔
      q ∉ ps ∧ (q, other) ∈ r.outcomes ∨ q ∈ ps ∧ other = f q := by
  induction ps generalizing r with
  | nil => simp
  | cons p rest ih =>
    rw [List.map_cons, List.foldl_cons, ih, mem_insert]
    by_cases hp : q = p
    · subst hp
      by_cases hr : q ∈ rest <;> simp [hr]
    · by_cases hr : q ∈ rest <;> simp [hr, hp]

theorem mem_unresolved : p ∈ r.unresolved ↔ (p, none) ∈ r.outcomes := by
  simp [unresolved, List.mem_mergeSort, List.mem_map, List.mem_filter]

theorem Single.pairwise_unresolved (h : r.Single) : r.unresolved.Pairwise EntryPath.Before := by
  have hsorted : r.unresolved.Pairwise fun p q => p.precedes q = true :=
    @List.pairwise_mergeSort _ EntryPath.precedes EntryPath.precedes_trans
      EntryPath.precedes_total _
  have hkeys : ((r.outcomes.filter fun o => o.2.isNone).map Prod.fst).Nodup :=
    List.Nodup.sublist (List.filter_sublist.map Prod.fst) h
  have hnodup : r.unresolved.Nodup := (List.mergeSort_perm _ _).nodup_iff.2 hkeys
  exact (hsorted.and hnodup).imp fun hpq => EntryPath.before_of_precedes hpq.1 hpq.2

/-! ### Tables of a function of the entry -/

section

variable {ps : List EntryPath} {f : EntryPath → Option Reference}

theorem single_ofOutcomes (outcomes : List (EntryPath × Option Reference)) :
    (ofOutcomes outcomes).Single :=
  have hempty : Single ⟨[]⟩ := List.nodup_nil
  single_foldl_insert hempty outcomes

theorem mem_ofOutcomes : (q, other) ∈ (ofOutcomes (ps.map fun p => (p, f p))).outcomes ↔
    q ∈ ps ∧ other = f q := by
  rw [ofOutcomes, mem_foldl_insert]
  simp

theorem get?_ofOutcomes (ps : List EntryPath) (f : EntryPath → Option Reference) (q : EntryPath) :
    (ofOutcomes (ps.map fun p => (p, f p))).get? q = if q ∈ ps then f q else none :=
  get?_foldl_insert ⟨[]⟩ ps f q

theorem size_ofOutcomes : (ofOutcomes (ps.map fun p => (p, f p))).size = ps.toFinset.card := by
  have hkeys : (ofOutcomes (ps.map fun p => (p, f p))).Single := single_ofOutcomes _
  rw [size, ← List.length_map Prod.fst, ← List.toFinset_card_of_nodup hkeys]
  congr 1
  ext q
  simp [mem_ofOutcomes]

theorem mem_unresolved_ofOutcomes :
    p ∈ (ofOutcomes (ps.map fun p => (p, f p))).unresolved ↔ p ∈ ps ∧ f p = none := by
  rw [mem_unresolved, mem_ofOutcomes, eq_comm]

end

end Resolutions

namespace Convention

variable {c : Convention} {store : Store} {ps : List EntryPath}

theorem eq_reference_of_resolve? {p : EntryPath} {r : Reference}
    (h : c.resolve? store p = some r) : r = c.reference p := by
  unfold resolve? at h
  split at h
  · split at h
    · exact (Option.some.inj h).symm
    · cases h
  · cases h

theorem reference_injective {p q : EntryPath} (h : c.reference p = c.reference q) : p = q := by
  obtain ⟨collection, entry⟩ := p
  obtain ⟨collection', entry'⟩ := q
  simpa [reference, target, collectionId, entryField] using h

theorem get?_resolveAll (c : Convention) (store : Store) (ps : List EntryPath) (q : EntryPath) :
    (c.resolveAll store ps).get? q = if q ∈ ps then c.resolve? store q else none := by
  have h := Resolutions.get?_ofOutcomes ps.eraseDups (c.resolve? store) q
  simp only [List.mem_eraseDups] at h
  exact h

theorem mem_unresolved_resolveAll {p : EntryPath} :
    p ∈ (c.resolveAll store ps).unresolved ↔ p ∈ ps ∧ c.resolve? store p = none := by
  rw [resolveAll, Resolutions.mem_unresolved_ofOutcomes, List.mem_eraseDups]

theorem pairwise_unresolved_resolveAll :
    (c.resolveAll store ps).unresolved.Pairwise EntryPath.Before :=
  (Resolutions.single_ofOutcomes _).pairwise_unresolved

end Convention

end TaggedMarkup
