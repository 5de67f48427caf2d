import TaggedMarkup.Value
/-!
# Parts of values

What stands in a value at any depth, whichever fields and positions lead there, and how deep lists
and objects are nested around it.
-/
namespace TaggedMarkup

namespace Value

mutual

/-- How deep lists and objects are nested. -/
def depth : Value → Nat
  | list items => depthOfItems items + 1
  | object fields => depthOfFields fields + 1
  | _ => 0

def depthOfItems : List Value → Nat
  | [] => 0
  | v :: rest => max v.depth (depthOfItems rest)

def depthOfFields : List (String × Value) → Nat
  | [] => 0
  | (_, v) :: rest => max v.depth (depthOfFields rest)

end

theorem depth_lt_of_mem_items {items : List Value} {v : Value} (h : v ∈ items) :
    v.depth < (list items).depth := by
  rw [depth, Nat.lt_succ_iff]
  induction items with
  | nil => cases h
  | cons w rest ih =>
    rw [depthOfItems]
    rcases List.mem_cons.1 h with rfl | h
    · exact Nat.le_max_left _ _
    · exact Nat.le_trans (ih h) (Nat.le_max_right _ _)

theorem depth_lt_of_mem_fields {fields : Entries Value} {key : String} {v : Value}
    (h : (key, v) ∈ fields) : v.depth < (object fields).depth := by
  rw [depth, Nat.lt_succ_iff]
  induction fields with
  | nil => cases h
  | cons f rest ih =>
    obtain ⟨other, w⟩ := f
    rw [depthOfFields]
    rcases List.mem_cons.1 h with heq | h
    · obtain ⟨-, rfl⟩ := Prod.mk.inj heq
      exact Nat.le_max_left _ _
    · exact Nat.le_trans (ih h) (Nat.le_max_right _ _)

theorem depth_list_le {items : List Value} {m : Nat} (h : ∀ v ∈ items, v.depth ≤ m) :
    (list items).depth ≤ m + 1 := by
  rw [depth, Nat.succ_le_succ_iff]
  induction items with
  | nil => exact Nat.zero_le m
  | cons v rest ih =>
    rw [depthOfItems]
    exact Nat.max_le.2 ⟨h v List.mem_cons_self, ih fun w hw => h w (List.mem_cons_of_mem _ hw)⟩

theorem depth_object_le {fields : Entries Value} {m : Nat}
    (h : ∀ key v, (key, v) ∈ fields → v.depth ≤ m) : (object fields).depth ≤ m + 1 := by
  rw [depth, Nat.succ_le_succ_iff]
  induction fields with
  | nil => exact Nat.zero_le m
  | cons f rest ih =>
    obtain ⟨key, v⟩ := f
    rw [depthOfFields]
    exact Nat.max_le.2 ⟨h key v List.mem_cons_self,
      ih fun k w hw => h k w (List.mem_cons_of_mem _ hw)⟩

end Value

/-- A value stands in another: it is that value, or stands in an item or a field of it. -/
inductive Value.Inside (w : Value) : Value → Prop
  | self : Inside w w
  | item {items : List Value} {v : Value} (hm : v ∈ items) (h : Inside w v) : Inside w (.list items)
  | field {fields : Entries Value} {key : String} {v : Value} (hm : (key, v) ∈ fields)
      (h : Inside w v) : Inside w (.object fields)

namespace Value.Inside

variable {v w : Value}

/-- What is around a value is not empty. -/
theorem isEmptyContainer_eq (h : w.Inside v) (hw : w.isEmptyContainer = false) :
    v.isEmptyContainer = false := by
  cases h with
  | self => exact hw
  | item hm _ => exact List.isEmpty_eq_false_iff.2 (List.ne_nil_of_mem hm)
  | field hm _ => exact List.isEmpty_eq_false_iff.2 (List.ne_nil_of_mem hm)

theorem reference_in_object {r : Reference} {fields : Entries Value}
    (h : (Value.reference r).Inside (.object fields)) :
    ∃ key v, (key, v) ∈ fields ∧ (Value.reference r).Inside v := by
  cases h with
  | field hm h => exact ⟨_, _, hm, h⟩

theorem reference_in_list {r : Reference} {items : List Value}
    (h : (Value.reference r).Inside (.list items)) :
    ∃ v ∈ items, (Value.reference r).Inside v := by
  cases h with
  | item hm h => exact ⟨_, hm, h⟩

theorem not_reference_in_string {r : Reference} {t : String} :
    ¬ (Value.reference r).Inside (.string t) := nofun

end Value.Inside

end TaggedMarkup
