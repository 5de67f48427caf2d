/-!
# Keyed entries in order of first occurrence

Objects, element maps and type declarations keep their entries in the order in which a key was
first given. Giving a key again replaces the value in place. `get?_insert` says what an insertion
changes and `keys_insert` that it never reorders.
-/
namespace TaggedMarkup

/-- Entries in order; a list built by `insert` and `erase` holds each key once. -/
abbrev Entries (α : Type) := List (String × α)

namespace Entries

variable {α β : Type}

def keys (es : Entries α) : List String := es.map Prod.fst

/-- Each key stands once. -/
def Distinct (es : Entries α) : Prop := (keys es).Nodup

def get? : Entries α → String → Option α
  | [], _ => none
  | (k, a) :: rest, key => if k = key then some a else get? rest key

def contains (es : Entries α) (key : String) : Bool := (get? es key).isSome

/-- Replaces the value of a key in place, or appends a key not yet there. -/
def insert : Entries α → String → α → Entries α
  | [], key, a => [(key, a)]
  | (k, b) :: rest, key, a => if k = key then (k, a) :: rest else (k, b) :: insert rest key a

/-- Removes a key and keeps the order of the rest. -/
def erase (es : Entries α) (key : String) : Entries α := es.filter fun e => e.1 ≠ key

/-- Inserts further entries one after the other. -/
def extend (es more : Entries α) : Entries α := more.foldl (fun acc e => insert acc e.1 e.2) es

/-- The entries of a list of pairs; a repeated key keeps its place and takes the last value. -/
def ofPairs (pairs : List (String × α)) : Entries α := extend [] pairs

@[simp] theorem get?_nil (key : String) : get? ([] : Entries α) key = none := rfl

theorem get?_cons (k : String) (a : α) (rest : Entries α) (key : String) :
    get? ((k, a) :: rest) key = if k = key then some a else get? rest key := rfl

theorem get?_insert (es : Entries α) (k : String) (a : α) (key : String) :
    get? (insert es k a) key = if k = key then some a else get? es key := by
  induction es with
  | nil => rfl
  | cons e rest ih =>
    obtain ⟨k', b⟩ := e
    by_cases h : k' = k
    · subst h
      by_cases hk : k' = key <;> simp [insert, get?, hk]
    · by_cases hk : k' = key
      · subst hk
        simp [insert, get?, h, Ne.symm h]
      · simp [insert, get?, h, hk, ih]

theorem get?_eq_none_iff {es : Entries α} {key : String} :
    get? es key = none ↔ key ∉ keys es := by
  induction es with
  | nil => simp [keys]
  | cons e rest ih =>
    obtain ⟨k, a⟩ := e
    by_cases h : k = key
    · simp [get?, keys, h]
    · simp only [get?, h, if_false, ih, keys, List.map_cons, List.mem_cons, not_or]
      exact ⟨fun hr => ⟨Ne.symm h, hr⟩, And.right⟩

/-- An insertion appends the key if it is new and otherwise leaves the keys as they are. -/
theorem keys_insert (es : Entries α) (k : String) (a : α) :
    keys (insert es k a) = if k ∈ keys es then keys es else keys es ++ [k] := by
  induction es with
  | nil => simp [insert, keys]
  | cons e rest ih =>
    obtain ⟨k', b⟩ := e
    by_cases h : k' = k
    · simp [insert, keys, h]
    · have hne : k ≠ k' := fun hk => h hk.symm
      have hcons : keys ((k', b) :: rest) = k' :: keys rest := rfl
      have hins : keys (insert ((k', b) :: rest) k a) = k' :: keys (insert rest k a) := by
        simp [insert, keys, h]
      rw [hins, hcons, ih]
      by_cases hm : k ∈ keys rest <;> simp [hm, hne]

theorem distinct_insert {es : Entries α} (h : Distinct es) (k : String) (a : α) :
    Distinct (insert es k a) := by
  unfold Distinct at *
  rw [keys_insert]
  by_cases hm : k ∈ keys es
  · simpa [hm] using h
  · simp only [hm, if_false]
    rw [List.nodup_append]
    refine ⟨h, by simp, ?_⟩
    intro x hx y hy hxy
    simp only [List.mem_singleton] at hy
    subst hy; subst hxy
    exact hm hx

theorem distinct_extend {es : Entries α} (h : Distinct es) (more : Entries α) :
    Distinct (extend es more) := by
  induction more generalizing es with
  | nil => exact h
  | cons e rest ih => exact ih (distinct_insert h e.1 e.2)

theorem distinct_ofPairs (pairs : List (String × α)) : Distinct (ofPairs pairs) :=
  distinct_extend (by simp [Distinct, keys]) pairs

/-- Keys whose values are a function of the key; their order and number do not matter. -/
theorem get?_extend_map (es : Entries α) (ks : List String) (f : String → α) (key : String) :
    get? (extend es (ks.map fun k => (k, f k))) key =
      if key ∈ ks then some (f key) else get? es key := by
  induction ks generalizing es with
  | nil => simp [extend]
  | cons k rest ih =>
    have hcons : extend es ((k :: rest).map fun k => (k, f k)) =
        extend (insert es k (f k)) (rest.map fun k => (k, f k)) := rfl
    rw [hcons, ih, get?_insert]
    by_cases hr : key ∈ rest
    · simp [hr]
    · by_cases hk : k = key
      · simp [hk]
      · simp [hr, hk, Ne.symm hk]

end Entries

end TaggedMarkup
