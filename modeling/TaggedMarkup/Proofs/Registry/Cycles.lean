import Mathlib.Data.List.Chain
import Mathlib.Data.List.Nodup
import Mathlib.Data.List.Perm.Subperm
import Mathlib.Data.List.TakeWhile
import Mathlib.Logic.Relation
import TaggedMarkup.Dependencies
import TaggedMarkup.Proofs.Entries
/-!
# The core has a name exactly if there is a cycle

Names that each depend on another of them outlast every pruning, and the names of a cycle are such.
So where there is a cycle the core is not empty, and a walk in the core meets no end: it takes a new
name with each step until it comes back to one that it has passed, and there are only so many.
`cycle?_eq_none_iff` and `isCycle_of_cycle?` are the two halves of what `cycle?` finds.
-/
namespace TaggedMarkup

open Relation

/-- A walk along the relation back to the name it started from, with no other name met twice. -/
def IsCycle (R : String → String → Prop) (names : List String) : Prop :=
  ∃ first rest, names = first :: rest ++ [first] ∧ (first :: rest).Nodup ∧ names.IsChain R

/-- A name is related to all that a walk from it passes. -/
theorem transGen_of_isChain {R : String → String → Prop} {first : String} {names : List String}
    (h : (first :: names).IsChain R) : ∀ name ∈ names, TransGen R first name := by
  induction names generalizing first with
  | nil => simp
  | cons second rest ih =>
    obtain ⟨hstep, hrest⟩ := List.isChain_cons_cons.1 h
    intro name hname
    rcases List.mem_cons.1 hname with rfl | hname
    · exact .single hstep
    · exact .head hstep (ih hrest name hname)

theorem IsCycle.imp {R S : String → String → Prop} {names : List String} (h : IsCycle R names)
    (hRS : ∀ a b, R a b → S a b) : IsCycle S names := by
  obtain ⟨first, rest, rfl, hnodup, hchain⟩ := h
  exact ⟨first, rest, rfl, hnodup, hchain.imp fun {a b} => hRS a b⟩

/-- All that a walk passes before its end is related to the end. -/
theorem transGen_last_of_isChain {R : String → String → Prop} {last : String} {names : List String}
    (h : (names ++ [last]).IsChain R) : ∀ name ∈ names, TransGen R name last := by
  induction names with
  | nil => simp
  | cons first rest ih =>
    intro name hname
    rcases List.mem_cons.1 hname with rfl | hname
    · exact transGen_of_isChain h last (by simp)
    · exact ih h.tail name hname

/-- Each name of a cycle comes back to itself. -/
theorem IsCycle.transGen_self {R : String → String → Prop} {name : String} {names : List String}
    (h : IsCycle R names) (hname : name ∈ names) : TransGen R name name := by
  obtain ⟨first, rest, rfl, -, hchain⟩ := h
  have hout := transGen_of_isChain hchain
  have hback := transGen_last_of_isChain hchain
  have hfirst : TransGen R first first := hout first (by simp)
  rcases List.mem_append.1 hname with hname | hname
  · rcases List.mem_cons.1 hname with rfl | hrest
    · exact hfirst
    · exact (hback name hname).trans (hout name (List.mem_append_left _ hrest))
  · exact List.mem_singleton.1 hname ▸ hfirst

theorem IsCycle.exists_transGen {R : String → String → Prop} {names : List String}
    (h : IsCycle R names) : ∃ name, TransGen R name name := by
  obtain ⟨first, rest, rfl, hrest⟩ := h
  exact ⟨first, IsCycle.transGen_self ⟨first, rest, rfl, hrest⟩ (by simp)⟩

namespace Dependencies

variable {d : Dependencies} {a b name : String} {names : List String}

/-- The first name is listed with the second among those that it depends on. -/
def DependsOn (d : Dependencies) (a b : String) : Prop := ∃ names, (a, names) ∈ d ∧ b ∈ names

theorem DependsOn.mem_keys (h : d.DependsOn a b) : a ∈ Entries.keys d := by
  obtain ⟨names, hmem, -⟩ := h
  exact Entries.mem_keys_of_mem hmem

/-! ## What outlasts pruning -/

/-- Each of the names depends on one of them. -/
def Lasting (d : Dependencies) (S : String → Prop) : Prop := ∀ a, S a → ∃ b, d.DependsOn a b ∧ S b

variable {S : String → Prop}

theorem Lasting.prune (h : d.Lasting S) : (prune d).Lasting S := by
  intro a ha
  obtain ⟨b, ⟨names, hmem, hb⟩, hS⟩ := h a ha
  obtain ⟨_, hnext, -⟩ := h b hS
  exact ⟨b, ⟨names, mem_prune_iff.2 ⟨hmem, b, hb, Entries.contains_iff.2 hnext.mem_keys⟩, hb⟩, hS⟩

theorem Lasting.pruneWithin (h : d.Lasting S) (rounds : Nat) :
    (pruneWithin rounds d).Lasting S := by
  induction rounds generalizing d with
  | zero => exact h
  | succ rounds ih =>
    rw [Dependencies.pruneWithin]
    split
    · exact h
    · exact ih h.prune

/-- What leads to a name on a cycle leads there by way of such names. -/
theorem lasting_of_transGen (h : TransGen d.DependsOn name name) :
    d.Lasting fun a => TransGen d.DependsOn a name := by
  intro a ha
  obtain ⟨b, hstep, hrest⟩ := TransGen.head'_iff.1 ha
  rcases reflTransGen_iff_eq_or_transGen.1 hrest with rfl | hrest
  · exact ⟨_, hstep, h⟩
  · exact ⟨b, hstep, hrest⟩

theorem mem_keys_core_of_transGen (h : TransGen d.DependsOn name name) :
    name ∈ Entries.keys (core d) := by
  obtain ⟨b, hstep, -⟩ := (lasting_of_transGen h).pruneWithin d.length name h
  exact hstep.mem_keys

/-! ## Walks in the core -/

theorem DependsOn.of_core (h : (core d).DependsOn a b) : d.DependsOn a b := by
  obtain ⟨names, hmem, hb⟩ := h
  exact ⟨names, mem_of_mem_pruneWithin hmem, hb⟩

/-- Where there is nothing to prune, a walk goes on from each name. -/
theorem exists_next? (hd : prune d = d) (h : name ∈ Entries.keys d) :
    ∃ b, next? d name = some b ∧ d.DependsOn name b ∧ b ∈ Entries.keys d := by
  obtain ⟨names, hget⟩ : ∃ names, Entries.get? d name = some names := by
    rw [← Option.ne_none_iff_exists']
    exact fun hnone => Entries.get?_eq_none_iff.1 hnone h
  have hmem : (name, names) ∈ d := Entries.mem_of_get?_eq_some hget
  obtain ⟨-, other, hother, hlisted⟩ := mem_prune_iff.1 (hd.symm ▸ hmem)
  obtain ⟨b, hfind⟩ := Option.isSome_iff_exists.1 (List.find?_isSome.2 ⟨other, hother, hlisted⟩)
  have hb : Entries.contains d b = true := List.find?_some (p := Entries.contains d) hfind
  exact ⟨b, by rw [next?, hget]; exact hfind, ⟨names, hmem, List.mem_of_find?_eq_some hfind⟩,
    Entries.contains_iff.1 hb⟩

/-- What a trail holds from a name on starts with the name. -/
theorem exists_of_dropWhile {trail loop : List String} {x : String}
    (h : trail.dropWhile (· ≠ name) = x :: loop) :
    x = name ∧ ∃ before, trail = before ++ name :: loop := by
  have hx : x = name := by
    have hhead := List.head?_dropWhile_not (· ≠ name) trail
    rw [h] at hhead
    simpa using hhead
  subst hx
  exact ⟨rfl, trail.takeWhile (· ≠ x), by rw [← h, List.takeWhile_append_dropWhile]⟩

/-- A walk among names that leave nothing to prune closes a loop before it runs out of names. -/
theorem exists_loopFrom? (hd : prune d = d) {steps : Nat} {trail : List String}
    (hnodup : trail.Nodup) (hsub : trail ⊆ Entries.keys d) (hname : name ∈ Entries.keys d)
    (hchain : (trail ++ [name]).IsChain d.DependsOn) (hsteps : d.length < trail.length + steps) :
    ∃ loop, loopFrom? d steps trail name = some loop ∧ IsCycle d.DependsOn loop := by
  induction steps generalizing trail name with
  | zero =>
    have hle : trail.length ≤ (Entries.keys d).length :=
      (List.subperm_of_subset hnodup hsub).length_le
    have hlen : (Entries.keys d).length = d.length := List.length_map _
    omega
  | succ steps ih =>
    rw [loopFrom?]
    cases hloop : trail.dropWhile (· ≠ name) with
    | nil =>
      have hnew : name ∉ trail := fun hmem => by
        simpa using List.dropWhile_eq_nil_iff.1 hloop name hmem
      obtain ⟨b, hnext, hstep, hb⟩ := exists_next? hd hname
      simp only [hnext, Option.bind_some]
      refine ih ?_ ?_ hb ?_ ?_
      · refine List.nodup_append.2 ⟨hnodup, List.nodup_singleton _, ?_⟩
        simpa using fun a ha => ne_of_mem_of_not_mem ha hnew
      · exact List.append_subset.2 ⟨hsub, by simpa using hname⟩
      · exact hchain.append (.singleton b) (by simpa using hstep)
      · simpa [Nat.add_assoc, Nat.add_comm 1] using hsteps
    | cons x loop =>
      obtain ⟨rfl, before, rfl⟩ := exists_of_dropWhile hloop
      refine ⟨_, rfl, x, loop, rfl, (List.nodup_append.1 hnodup).2.1, ?_⟩
      rw [List.append_assoc] at hchain
      exact hchain.right_of_append

/-! ## What is found -/

theorem exists_isCycle_of_core (h : core d ≠ []) :
    ∃ names, d.cycle? = some names ∧ IsCycle d.DependsOn names := by
  rw [cycle?]
  cases hcore : core d with
  | nil => exact absurd hcore h
  | cons first rest =>
    obtain ⟨loop, hloop, hcycle⟩ : ∃ loop, loopFrom? (first :: rest) (rest.length + 2) [] first.1 =
        some loop ∧ IsCycle (Dependencies.DependsOn (first :: rest)) loop :=
      exists_loopFrom? (hcore ▸ prune_core d) List.nodup_nil (List.nil_subset _) (by simp)
        (.singleton _) (by simp)
    rw [← hcore] at hcycle
    exact ⟨loop, hloop, hcycle.imp fun _ _ => DependsOn.of_core⟩

theorem isCycle_of_cycle? (h : d.cycle? = some names) : IsCycle d.DependsOn names := by
  have hne : core d ≠ [] := fun hcore => by simp [cycle?, hcore] at h
  obtain ⟨found, hfound, hcycle⟩ := exists_isCycle_of_core hne
  exact Option.some.inj (hfound.symm.trans h) ▸ hcycle

theorem cycle?_eq_none_iff : d.cycle? = none ↔ ∀ name, ¬ TransGen d.DependsOn name name := by
  constructor
  · intro hnone name hcycle
    have hne : core d ≠ [] := fun hcore => by simpa [hcore] using mem_keys_core_of_transGen hcycle
    obtain ⟨names, hsome, -⟩ := exists_isCycle_of_core hne
    exact Option.some_ne_none _ (hsome.symm.trans hnone)
  · intro h
    refine Option.eq_none_iff_forall_ne_some.2 fun names hsome => ?_
    obtain ⟨name, hcycle⟩ := (isCycle_of_cycle? hsome).exists_transGen
    exact h name hcycle

end Dependencies

end TaggedMarkup
