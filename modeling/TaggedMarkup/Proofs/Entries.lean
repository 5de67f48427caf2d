import Mathlib.Data.List.Nodup
import TaggedMarkup.Entries
/-!
# Entries as lists

Where the keys are known, an insertion is an append or a replacement at a known place, and a lookup
is membership. `get?_eq_some_iff` and `extend_eq_append` are the forms that proofs about whole
trees and values use.
-/
namespace TaggedMarkup.Entries

variable {α β : Type} {es fs : Entries α} {key : String} {a : α}

@[simp] theorem keys_nil : keys ([] : Entries α) = [] := rfl

@[simp] theorem keys_cons (e : String × α) (es : Entries α) : keys (e :: es) = e.1 :: keys es := rfl

@[simp] theorem keys_append (es fs : Entries α) : keys (es ++ fs) = keys es ++ keys fs := by
  simp [keys]

theorem mem_keys_of_mem (h : (key, a) ∈ es) : key ∈ keys es := List.mem_map_of_mem (f := Prod.fst) h

theorem exists_of_mem_keys (h : key ∈ keys es) : ∃ a, (key, a) ∈ es := by
  obtain ⟨⟨k, a⟩, hm, rfl⟩ := List.mem_map.1 h
  exact ⟨a, hm⟩

theorem forall_mem_cons {P : String → α → Prop} :
    (∀ k b, (k, b) ∈ (key, a) :: es → P k b) ↔ P key a ∧ ∀ k b, (k, b) ∈ es → P k b := by
  constructor
  · intro h
    exact ⟨h key a List.mem_cons_self, fun k b hm => h k b (List.mem_cons_of_mem _ hm)⟩
  · rintro ⟨ha, h⟩ k b hm
    rcases List.mem_cons.1 hm with he | hm
    · obtain ⟨rfl, rfl⟩ := Prod.mk.inj he
      exact ha
    · exact h k b hm

theorem distinct_cons {e : String × α} :
    Distinct (e :: es) ↔ e.1 ∉ keys es ∧ Distinct es := by
  simp [Distinct]

theorem Distinct.filter (h : Distinct es) (p : String × α → Bool) : Distinct (es.filter p) :=
  List.Nodup.sublist (List.filter_sublist.map Prod.fst) h

theorem mem_of_get?_eq_some (h : get? es key = some a) : (key, a) ∈ es := by
  induction es with
  | nil => simp at h
  | cons e rest ih =>
    obtain ⟨k, b⟩ := e
    rw [get?_cons] at h
    split at h
    · next hk => simp_all
    · exact List.mem_cons_of_mem _ (ih h)

theorem get?_eq_some_iff (hd : Distinct es) : get? es key = some a ↔ (key, a) ∈ es := by
  refine ⟨mem_of_get?_eq_some, fun h => ?_⟩
  induction es with
  | nil => simp at h
  | cons e rest ih =>
    obtain ⟨k, b⟩ := e
    obtain ⟨hk, hd⟩ := distinct_cons.1 hd
    rw [get?_cons]
    rcases List.mem_cons.1 h with h | h
    · simp_all
    · rw [if_neg fun he : k = key => hk (he ▸ mem_keys_of_mem h), ih hd h]

theorem get?_append (es fs : Entries α) (key : String) :
    get? (es ++ fs) key = (get? es key).or (get? fs key) := by
  induction es with
  | nil => simp
  | cons e rest ih =>
    obtain ⟨k, b⟩ := e
    by_cases hk : k = key <;> simp [get?_cons, hk, ih]

theorem get?_filter (es : Entries α) (p : String → Bool) (key : String) :
    get? (es.filter fun e => p e.1) key = if p key then get? es key else none := by
  induction es with
  | nil => simp
  | cons e rest ih =>
    obtain ⟨k, a⟩ := e
    by_cases hk : k = key
    · subst hk
      by_cases hp : p k = true
      · simp [hp, get?_cons]
      · simp [hp, ih]
    · by_cases hp : p k = true
      · simp [hp, get?_cons, hk, ih]
      · simp [hp, get?_cons, hk, ih]

theorem get?_erase (es : Entries α) (k key : String) :
    get? (erase es k) key = if key = k then none else get? es key := by
  have hfilter := get?_filter es (fun key => decide (key ≠ k)) key
  by_cases hk : key = k <;> simpa [erase, hk] using hfilter

theorem contains_iff : contains es key = true ↔ key ∈ keys es := by
  rw [contains, Option.isSome_iff_ne_none, ne_eq, get?_eq_none_iff, not_not]

/-- Entries without the key stay as they are before those where it is inserted. -/
theorem insert_append (h : key ∉ keys es) (fs : Entries α) (a : α) :
    insert (es ++ fs) key a = es ++ insert fs key a := by
  induction es with
  | nil => rfl
  | cons e rest ih =>
    obtain ⟨k, b⟩ := e
    simp only [keys_cons, List.mem_cons, not_or] at h
    rw [List.cons_append, insert, if_neg (Ne.symm h.1), ih h.2]
    rfl

theorem insert_of_not_mem (h : key ∉ keys es) (a : α) : insert es key a = es ++ [(key, a)] := by
  have happend := insert_append h [] a
  rwa [List.append_nil] at happend

theorem insert_append_singleton (h : key ∉ keys es) (b a : α) :
    insert (es ++ [(key, b)]) key a = es ++ [(key, a)] := by
  rw [insert_append h, insert, if_pos rfl]

/-- Removing a key that has just been appended leaves what was there. -/
theorem erase_insert (h : key ∉ keys es) (a : α) : erase (insert es key a) key = es := by
  have hkept : ∀ e ∈ es, decide (e.1 ≠ key) = true := fun e he =>
    decide_eq_true fun hkey => h (hkey ▸ mem_keys_of_mem he)
  rw [insert_of_not_mem h, erase, List.filter_append, List.filter_eq_self.2 hkept]
  simp

theorem insert_insert (es : Entries α) (key : String) (a b : α) :
    insert (insert es key a) key b = insert es key b := by
  induction es with
  | nil => simp [insert]
  | cons e rest ih =>
    obtain ⟨k, c⟩ := e
    by_cases hk : k = key <;> simp [insert, hk, ih]

theorem insert_eq_self (h : get? es key = some a) : insert es key a = es := by
  induction es with
  | nil => cases h
  | cons e rest ih =>
    obtain ⟨k, b⟩ := e
    rw [get?_cons] at h
    by_cases hk : k = key
    · rw [if_pos hk] at h
      rw [insert, if_pos hk, Option.some.inj h]
    · rw [if_neg hk] at h
      rw [insert, if_neg hk, ih h]

theorem mem_insert {k : String} {a b : α} (h : (k, b) ∈ insert es key a) :
    (k, b) ∈ es ∨ k = key ∧ b = a := by
  induction es with
  | nil =>
    obtain ⟨rfl, rfl⟩ := Prod.mk.inj (List.mem_singleton.1 h)
    exact .inr ⟨rfl, rfl⟩
  | cons e rest ih =>
    obtain ⟨k', c⟩ := e
    rw [insert] at h
    split at h
    · next hk =>
      rcases List.mem_cons.1 h with h | h
      · obtain ⟨rfl, rfl⟩ := Prod.mk.inj h
        exact .inr ⟨hk, rfl⟩
      · exact .inl (List.mem_cons_of_mem _ h)
    · rcases List.mem_cons.1 h with h | h
      · exact .inl (h ▸ List.mem_cons_self)
      · exact (ih h).imp_left (List.mem_cons_of_mem _)

theorem mem_extend {k : String} {b : α} (h : (k, b) ∈ extend es fs) : (k, b) ∈ es ∨ (k, b) ∈ fs := by
  induction fs generalizing es with
  | nil => exact .inl h
  | cons e rest ih =>
    rcases ih h with h | h
    · rcases mem_insert h with h | ⟨rfl, rfl⟩
      · exact .inl h
      · exact .inr List.mem_cons_self
    · exact .inr (List.mem_cons_of_mem _ h)

theorem get?_extend (hd : Distinct fs) (es : Entries α) (key : String) :
    get? (extend es fs) key = (get? fs key).or (get? es key) := by
  induction fs generalizing es with
  | nil => rfl
  | cons e rest ih =>
    obtain ⟨k, a⟩ := e
    obtain ⟨hk, hd⟩ := distinct_cons.1 hd
    have hstep : extend es ((k, a) :: rest) = extend (insert es k a) rest := rfl
    rw [hstep, ih hd, get?_insert, get?_cons]
    split
    · next he =>
      subst he
      rw [get?_eq_none_iff.2 hk]
      rfl
    · rfl

/-- Extending by new and distinct keys appends. -/
theorem extend_eq_append (hd : Distinct fs) (h : ∀ key ∈ keys fs, key ∉ keys es) :
    extend es fs = es ++ fs := by
  induction fs generalizing es with
  | nil => simp [extend]
  | cons e rest ih =>
    obtain ⟨k, a⟩ := e
    obtain ⟨hk, hd⟩ := distinct_cons.1 hd
    have hstep : extend es ((k, a) :: rest) = extend (insert es k a) rest := rfl
    have hrest : ∀ key ∈ keys rest, key ∉ keys (es ++ [(k, a)]) := by
      intro key hm
      have hne : key ≠ k := fun he => hk (he ▸ hm)
      simp [hne, h key (List.mem_cons_of_mem _ hm)]
    rw [hstep, insert_of_not_mem (h k (by simp)), ih hd hrest, List.append_assoc]
    rfl

theorem ofPairs_append_singleton (es : Entries α) (e : String × α) :
    ofPairs (es ++ [e]) = insert (ofPairs es) e.1 e.2 := by
  rw [ofPairs, extend, List.foldl_append]
  rfl

theorem ofPairs_eq (h : Distinct es) : ofPairs es = es := extend_eq_append h (by simp)

end TaggedMarkup.Entries
