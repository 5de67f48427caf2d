import TaggedMarkup.Entries
/-!
# Dependencies among names

Each name stands with the names that it depends on directly. A name that depends on none of the list
is taken away, and so on until nothing changes. What is left is the core: each of its names depends
on another of them, so a walk inside the core never ends and must repeat a name. There is a cycle
exactly if the core is not empty. `mem_prune_iff` says what pruning keeps, and `prune_core` that the
core has nothing left to prune.
-/
namespace TaggedMarkup

/-- Names, each with the names that it depends on. -/
abbrev Dependencies := Entries (List String)

namespace Dependencies

/-- The names that depend on a name of the list. -/
def prune (d : Dependencies) : Dependencies :=
  d.filter fun e => e.2.any (Entries.contains d)

/-- Prunes until nothing changes, at most `rounds` times. -/
def pruneWithin : Nat → Dependencies → Dependencies
  | 0, d => d
  | rounds + 1, d =>
    if (prune d).length = d.length then d else pruneWithin rounds (prune d)

/-- What no pruning takes away; each round but the last takes a name, which bounds their number. -/
def core (d : Dependencies) : Dependencies := pruneWithin d.length d

/-- The first name of the list among those that a name depends on. -/
def next? (d : Dependencies) (name : String) : Option String :=
  (Entries.get? d name).bind fun names => names.find? (Entries.contains d)

/-- The loop that a walk of at most `steps` steps closes, its first name repeated at the end, where
`trail` leads to `name`. -/
def loopFrom? (d : Dependencies) : Nat → List String → String → Option (List String)
  | 0, _, _ => none
  | steps + 1, trail, name =>
    match trail.dropWhile (· ≠ name) with
    | [] => (next? d name).bind (loopFrom? d steps (trail ++ [name]))
    | loop => some (loop ++ [name])

/-- The cycle met first by a walk from the first name of the core. -/
def cycle? (d : Dependencies) : Option (List String) :=
  match core d with
  | [] => none
  | (name, names) :: rest => loopFrom? ((name, names) :: rest) (rest.length + 2) [] name

theorem mem_prune_iff {d : Dependencies} {e : String × List String} :
    e ∈ prune d ↔ e ∈ d ∧ ∃ name ∈ e.2, Entries.contains d name = true := by
  simp [prune]

theorem prune_eq_of_length_eq {d : Dependencies} (h : (prune d).length = d.length) :
    prune d = d :=
  List.filter_sublist.eq_of_length h

/-- Pruning adds nothing. -/
theorem mem_of_mem_pruneWithin {rounds : Nat} {d : Dependencies}
    {entry : String × List String} (h : entry ∈ pruneWithin rounds d) : entry ∈ d := by
  induction rounds generalizing d with
  | zero => exact h
  | succ rounds ih =>
    rw [pruneWithin] at h
    split at h
    · exact h
    · exact (mem_prune_iff.1 (ih h)).1

/-- Enough rounds leave nothing to prune. -/
theorem prune_pruneWithin {rounds : Nat} {d : Dependencies} (h : d.length ≤ rounds) :
    prune (pruneWithin rounds d) = pruneWithin rounds d := by
  induction rounds generalizing d with
  | zero =>
    obtain rfl : d = [] := List.length_eq_zero_iff.1 (Nat.le_zero.1 h)
    rfl
  | succ rounds ih =>
    by_cases hl : (prune d).length = d.length
    · simp only [pruneWithin, hl, if_true]
      exact prune_eq_of_length_eq hl
    · simp only [pruneWithin, hl, if_false]
      have hle : (prune d).length ≤ d.length := List.length_filter_le _ _
      exact ih (by omega)

theorem prune_core (d : Dependencies) : prune (core d) = core d :=
  prune_pruneWithin (Nat.le_refl _)

/-- Each name of the core depends on a name of the core. -/
theorem exists_contains_core {d : Dependencies} {e : String × List String} (h : e ∈ core d) :
    ∃ name ∈ e.2, Entries.contains (core d) name = true := by
  have hp : e ∈ prune (core d) := (prune_core d).symm ▸ h
  exact (mem_prune_iff.1 hp).2

end Dependencies

end TaggedMarkup
