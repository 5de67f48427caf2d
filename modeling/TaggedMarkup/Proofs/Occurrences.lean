import TaggedMarkup.Proofs.Entries
/-!
# First occurrences

Entries keep the order in which their keys were first given, however often a key is given again. So
the keys of entries that were put in one after the other are those of the pairs, each once, in the
order of their first occurrences.
-/
namespace TaggedMarkup

/-- The members of a list, each once and where it first occurs. -/
structure InFirstOrder (all names : List String) : Prop where
  mem_iff : ∀ s, s ∈ names ↔ s ∈ all
  sorted : names.Pairwise fun s t => all.idxOf s < all.idxOf t

variable {all names : List String}

namespace InFirstOrder

theorem nil : InFirstOrder [] [] := ⟨fun _ => Iff.rfl, List.Pairwise.nil⟩

theorem nodup (h : InFirstOrder all names) : names.Nodup :=
  h.sorted.imp fun hlt heq => absurd (heq ▸ hlt) (Nat.lt_irrefl _)

/-- One more member comes last, unless it has occurred before. -/
theorem append (h : InFirstOrder all names) (k : String) :
    InFirstOrder (all ++ [k]) (if k ∈ names then names else names ++ [k]) := by
  have hold : names.Pairwise fun s t => (all ++ [k]).idxOf s < (all ++ [k]).idxOf t := by
    refine h.sorted.imp_of_mem fun hs ht hlt => ?_
    rwa [List.idxOf_append_of_mem ((h.mem_iff _).1 hs), List.idxOf_append_of_mem ((h.mem_iff _).1 ht)]
  by_cases hk : k ∈ names
  · rw [if_pos hk]
    refine ⟨fun s => ?_, hold⟩
    rw [List.mem_append, List.mem_singleton, ← h.mem_iff, or_iff_left_of_imp]
    rintro rfl
    exact hk
  · rw [if_neg hk]
    refine ⟨fun s => ?_, List.pairwise_append.2 ⟨hold, List.pairwise_singleton _ _, ?_⟩⟩
    · rw [List.mem_append, List.mem_append, h.mem_iff]
    · intro s hs t ht
      obtain rfl := List.mem_singleton.1 ht
      have hnew : t ∉ all := fun ht => hk ((h.mem_iff t).2 ht)
      have hs := (h.mem_iff s).1 hs
      rw [List.idxOf_append_of_mem hs, List.idxOf_append_of_notMem hnew]
      exact Nat.lt_add_right _ (List.idxOf_lt_length_of_mem hs)

end InFirstOrder

namespace Entries

variable {α : Type} {es : Entries α}

theorem inFirstOrder_insert (h : InFirstOrder all es.keys) (k : String) (a : α) :
    InFirstOrder (all ++ [k]) (insert es k a).keys := by
  rw [keys_insert]
  exact h.append k

end Entries

end TaggedMarkup
