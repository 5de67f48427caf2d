/-!
# Character classes given by ranges

A class of characters is a list of code point ranges in ascending order, both ends included. Its
order is part of the class, so the search may stop early and `covers_iff` still reads the list as
the set it stands for.
-/
namespace TaggedMarkup.Text

/-- Ranges in order and apart: each starts after the one before it has ended. -/
def Ascending : List (Nat × Nat) → Prop
  | [] => True
  | (lo, hi) :: rest => lo ≤ hi ∧ (∀ next ∈ rest.head?, hi < next.1) ∧ Ascending rest

instance decidableAscending : (ranges : List (Nat × Nat)) → Decidable (Ascending ranges)
  | [] => isTrue trivial
  | (lo, hi) :: rest =>
    have := decidableAscending rest
    inferInstanceAs (Decidable (lo ≤ hi ∧ (∀ next ∈ rest.head?, hi < next.1) ∧ Ascending rest))

/-- A class of code points. -/
structure Ranges where
  toList : List (Nat × Nat)
  ascending : Ascending toList := by decide +kernel

theorem Ascending.lt_of_mem {lo hi : Nat} {rest : List (Nat × Nat)}
    (h : Ascending ((lo, hi) :: rest)) {r : Nat × Nat} (hr : r ∈ rest) : hi < r.1 := by
  induction rest generalizing lo hi with
  | nil => cases hr
  | cons next rest ih =>
    obtain ⟨-, hnext, hrest⟩ := h
    have hlt : hi < next.1 := hnext next rfl
    rcases List.mem_cons.1 hr with rfl | hr
    · exact hlt
    · exact Nat.lt_trans (Nat.lt_of_lt_of_le hlt hrest.1) (ih hrest hr)

namespace Ranges

/-- The search stops at the first range that lies beyond the code point. -/
def search : List (Nat × Nat) → Nat → Bool
  | [], _ => false
  | (lo, hi) :: rest, n => if n < lo then false else if n ≤ hi then true else search rest n

def covers (ranges : Ranges) (n : Nat) : Bool := search ranges.toList n

theorem search_iff {ranges : List (Nat × Nat)} (h : Ascending ranges) (n : Nat) :
    search ranges n = true ↔ ∃ r ∈ ranges, r.1 ≤ n ∧ n ≤ r.2 := by
  induction ranges with
  | nil => simp [search]
  | cons r rest ih =>
    obtain ⟨lo, hi⟩ := r
    have hlater : ∀ r ∈ rest, hi < r.1 := fun r hr => h.lt_of_mem hr
    obtain ⟨hle, -, hrest⟩ := h
    simp only [search, List.mem_cons, exists_eq_or_imp]
    split
    · next hlt =>
      simp only [Bool.false_eq_true, false_iff, not_or, not_exists, not_and]
      exact ⟨by omega, fun r hr hr1 => by have := hlater r hr; omega⟩
    · next hge =>
      split
      · next hin => simp only [true_iff]; exact .inl ⟨by omega, hin⟩
      · next hout =>
        rw [ih hrest]
        exact ⟨.inr, fun h => h.resolve_left fun h => hout h.2⟩

theorem covers_iff (ranges : Ranges) (n : Nat) :
    ranges.covers n = true ↔ ∃ r ∈ ranges.toList, r.1 ≤ n ∧ n ≤ r.2 :=
  search_iff ranges.ascending n

theorem covers_of_mem {ranges : Ranges} {lo hi : Nat} (hr : (lo, hi) ∈ ranges.toList) {n : Nat}
    (hlo : lo ≤ n) (hhi : n ≤ hi) : ranges.covers n = true :=
  (ranges.covers_iff n).2 ⟨_, hr, hlo, hhi⟩

end Ranges

end TaggedMarkup.Text
