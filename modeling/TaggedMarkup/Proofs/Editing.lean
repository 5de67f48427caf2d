import TaggedMarkup.Proofs.Keyed
import TaggedMarkup.Value.Edit
/-!
# What an edit changes

An edit changes the field at the end of its path, and nothing that is neither on the way to the
field nor inside it. Setting a field can be taken back: what is left is the value there was, with
its fields in the same order. Values with distinct keys stay such.
-/
namespace TaggedMarkup.Value

variable {v w new : Value} {fields : Entries Value} {parent path : List String} {key : String}
  {former now : Option Value} {edit edit' : Entries Value → Entries Value}

theorem editAt?_nil_eq_some_iff :
    v.editAt? edit [] = some w ↔ ∃ fields, v = object fields ∧ w = object (edit fields) := by
  cases v <;> simp [editAt?, eq_comm]

theorem editAt?_cons_eq_some_iff : v.editAt? edit (key :: parent) = some w ↔
    ∃ fields child changed, v = object fields ∧ Entries.get? fields key = some child ∧
      child.editAt? edit parent = some changed ∧
      w = object (Entries.insert fields key changed) := by
  cases v with
  | object fields =>
    simp only [editAt?, Option.bind_eq_bind, Option.bind_eq_some_iff, Option.pure_def,
      Option.some.injEq, object.injEq]
    constructor
    · rintro ⟨child, hchild, changed, hchanged, rfl⟩
      exact ⟨fields, child, changed, rfl, hchild, hchanged, rfl⟩
    · rintro ⟨_, child, changed, rfl, hchild, hchanged, rfl⟩
      exact ⟨child, hchild, changed, hchanged, rfl⟩
  | _ => simp [editAt?]

theorem fieldsAt?_cons_eq_some_iff : v.fieldsAt? (key :: parent) = some fields ↔
    ∃ fields' child, v = object fields' ∧ Entries.get? fields' key = some child ∧
      child.fieldsAt? parent = some fields := by
  cases v with
  | object fields' => simp [fieldsAt?, Option.bind_eq_some_iff]
  | _ => simp [fieldsAt?]

theorem eq_object_of_fieldsAt?_nil (h : v.fieldsAt? [] = some fields) : v = object fields := by
  cases v with
  | object fields' => rw [Option.some.inj h]
  | _ => cases h

/-- A path goes on from the fields it leads to as it does from an object that has them. -/
theorem getPath?_of_fieldsAt? (h : v.fieldsAt? parent = some fields) (rest : List String) :
    v.getPath? (parent ++ rest) = (object fields).getPath? rest := by
  induction parent generalizing v with
  | nil => rw [eq_object_of_fieldsAt?_nil h, List.nil_append]
  | cons key parent ih =>
    obtain ⟨fields', child, rfl, hchild, h⟩ := fieldsAt?_cons_eq_some_iff.1 h
    rw [List.cons_append, getPath?_cons, step?, hchild, Option.bind_some, ih h]

/-- Fields that a path leads to can be changed. -/
theorem exists_editAt? (edit : Entries Value → Entries Value)
    (h : v.fieldsAt? parent = some fields) :
    ∃ w, v.editAt? edit parent = some w ∧ w.fieldsAt? parent = some (edit fields) := by
  have hfields := fieldsAt?_editAt? edit v parent
  rw [h, Option.map_some] at hfields
  exact Option.bind_eq_some_iff.1 hfields

theorem editAt?_editAt? (h : v.editAt? edit parent = some w) :
    w.editAt? edit' parent = v.editAt? (fun fields => edit' (edit fields)) parent := by
  induction parent generalizing v w with
  | nil =>
    obtain ⟨fields, rfl, rfl⟩ := editAt?_nil_eq_some_iff.1 h
    rfl
  | cons key parent ih =>
    obtain ⟨fields, child, changed, rfl, hchild, hchanged, rfl⟩ := editAt?_cons_eq_some_iff.1 h
    simp [editAt?, Entries.get?_insert, Entries.insert_insert, hchild, ih hchanged]

theorem editAt?_eq_self (h : v.fieldsAt? parent = some fields) (hedit : edit fields = fields) :
    v.editAt? edit parent = some v := by
  induction parent generalizing v with
  | nil => rw [eq_object_of_fieldsAt?_nil h, editAt?, hedit]
  | cons key parent ih =>
    obtain ⟨fields', child, rfl, hchild, h⟩ := fieldsAt?_cons_eq_some_iff.1 h
    simp [editAt?, hchild, ih h, Entries.insert_eq_self hchild]

/-- Paths that do not lead through the field, and that the field is not on the way to, lead where
they led. -/
theorem getPath?_of_editAt? (h : v.editAt? edit parent = some w)
    (hedit : ∀ fields key', key' ≠ key →
      Entries.get? (edit fields) key' = Entries.get? fields key')
    {other : List String} (houtside : ¬ parent ++ [key] <+: other)
    (hbeside : ¬ other <+: parent ++ [key]) : w.getPath? other = v.getPath? other := by
  induction parent generalizing v w other with
  | nil =>
    obtain ⟨fields, rfl, rfl⟩ := editAt?_nil_eq_some_iff.1 h
    cases other with
    | nil => exact absurd List.nil_prefix hbeside
    | cons key' rest =>
      have hne : key' ≠ key := fun he => houtside (by simp [he])
      rw [getPath?_cons, getPath?_cons, step?, step?, hedit fields key' hne]
  | cons head parent ih =>
    obtain ⟨fields, child, changed, rfl, hchild, hchanged, rfl⟩ := editAt?_cons_eq_some_iff.1 h
    cases other with
    | nil => exact absurd List.nil_prefix hbeside
    | cons key' rest =>
      rw [getPath?_cons, getPath?_cons, step?, step?, Entries.get?_insert]
      by_cases hk : head = key'
      · subst hk
        simp only [List.cons_append, List.cons_prefix_cons, true_and] at houtside hbeside
        rw [if_pos rfl, hchild, Option.bind_some, Option.bind_some, ih hchanged houtside hbeside]
      · rw [if_neg hk]

/-- An edit is one of the fields around the last name of a path. -/
theorem editAround?_eq_some_iff {edit : String → Entries Value → Entries Value} :
    v.editAround? path edit = some (w, former) ↔
      ∃ parent key fields, path = parent ++ [key] ∧ v.fieldsAt? parent = some fields ∧
        v.editAt? (edit key) parent = some w ∧ Entries.get? fields key = former := by
  rcases List.eq_nil_or_concat' path with rfl | ⟨parent, key, rfl⟩
  · simp [editAround?]
  · simp [editAround?, Option.bind_eq_some_iff]

/-- The field at a path had one value and has another; what is neither on the way to the field nor
inside it is as it was. -/
structure Changed (v w : Value) (path : List String) (former now : Option Value) : Prop where
  before : v.getPath? path = former
  after : w.getPath? path = now
  elsewhere : ∀ other, ¬ path <+: other → ¬ other <+: path → w.getPath? other = v.getPath? other

theorem editAround?_changed {edit : String → Entries Value → Entries Value}
    (hedit : ∀ key fields key', Entries.get? (edit key fields) key' =
      if key' = key then now else Entries.get? fields key')
    (h : v.editAround? path edit = some (w, former)) : Changed v w path former now := by
  obtain ⟨parent, key, fields, rfl, hfields, hw, rfl⟩ := editAround?_eq_some_iff.1 h
  obtain ⟨w', hw', hfields'⟩ := exists_editAt? (edit key) hfields
  obtain rfl : w' = w := Option.some.inj (hw'.symm.trans hw)
  have hlast : ∀ fields : Entries Value,
      (object fields).getPath? [key] = Entries.get? fields key := fun fields => by
    rw [getPath?_cons, step?]
    exact Option.bind_fun_some _
  refine ⟨?_, ?_, fun other houtside hbeside => ?_⟩
  · rw [getPath?_of_fieldsAt? hfields, hlast]
  · rw [getPath?_of_fieldsAt? hfields', hlast, hedit, if_pos rfl]
  · refine getPath?_of_editAt? hw (fun fields key' hne => ?_) houtside hbeside
    rw [hedit, if_neg hne]

theorem set?_changed (h : v.set? path new = some (w, former)) :
    Changed v w path former (some new) := by
  refine editAround?_changed (fun key fields key' => ?_) h
  rw [Entries.get?_insert]
  simp only [eq_comm]

theorem unset?_changed (h : v.unset? path = some (w, former)) : Changed v w path former none :=
  editAround?_changed (fun key fields key' => Entries.get?_erase fields key key') h

/-- A second edit at the place of a first can restore the fields that the first one changed. -/
theorem editAround?_undone {edit edit' : String → Entries Value → Entries Value}
    (h : v.editAround? path edit = some (w, former))
    (hback : ∀ key fields, Entries.get? fields key = former → edit' key (edit key fields) = fields)
    (hnow : ∀ key fields, Entries.get? (edit key fields) key = now) :
    w.editAround? path edit' = some (v, now) := by
  obtain ⟨parent, key, fields, rfl, hfields, hw, hformer⟩ := editAround?_eq_some_iff.1 h
  obtain ⟨w', hw', hfields'⟩ := exists_editAt? (edit key) hfields
  obtain rfl : w' = w := Option.some.inj (hw'.symm.trans hw)
  have hback : w'.editAt? (edit' key) parent = some v := by
    rw [editAt?_editAt? hw]
    exact editAt?_eq_self hfields (hback key fields hformer)
  exact editAround?_eq_some_iff.2
    ⟨parent, key, edit key fields, rfl, hfields', hback, hnow key fields⟩

/-- What a field held can be set again. -/
theorem set?_undone {old : Value} (h : v.set? path new = some (w, some old)) :
    w.set? path old = some (v, some new) := by
  refine editAround?_undone h (fun key fields hold => ?_) fun key fields => ?_
  · rw [Entries.insert_insert, Entries.insert_eq_self hold]
  · rw [Entries.get?_insert, if_pos rfl]

/-- A field that was not there can be removed again. -/
theorem set?_undone_of_none (h : v.set? path new = some (w, none)) :
    w.unset? path = some (v, some new) := by
  refine editAround?_undone h (fun key fields hnone => ?_) fun key fields => ?_
  · exact Entries.erase_insert (Entries.get?_eq_none_iff.1 hnone) new
  · rw [Entries.get?_insert, if_pos rfl]

theorem Keyed.insert (h : (Value.object fields).Keyed) (key : String) (hnew : new.Keyed) :
    (Value.object (Entries.insert fields key new)).Keyed := by
  refine .object (Entries.distinct_insert h.distinct key new) fun k v hm => ?_
  rcases Entries.mem_insert hm with hm | ⟨-, rfl⟩
  · exact h.of_mem_fields hm
  · exact hnew

theorem Keyed.erase (h : (Value.object fields).Keyed) (key : String) :
    (Value.object (Entries.erase fields key)).Keyed :=
  .object (h.distinct.filter _) fun _ _ hm => h.of_mem_fields (List.mem_of_mem_filter hm)

theorem Keyed.editAt? (h : v.Keyed) (hw : v.editAt? edit parent = some w)
    (hedit : ∀ fields, (Value.object fields).Keyed → (Value.object (edit fields)).Keyed) :
    w.Keyed := by
  induction parent generalizing v w with
  | nil =>
    obtain ⟨fields, rfl, rfl⟩ := editAt?_nil_eq_some_iff.1 hw
    exact hedit fields h
  | cons key parent ih =>
    obtain ⟨fields, child, changed, rfl, hchild, hchanged, rfl⟩ := editAt?_cons_eq_some_iff.1 hw
    exact h.insert key (ih (h.of_mem_fields (Entries.mem_of_get?_eq_some hchild)) hchanged)

theorem Keyed.set? (h : v.Keyed) (hnew : new.Keyed) (hw : v.set? path new = some (w, former)) :
    w.Keyed := by
  obtain ⟨parent, key, fields, -, -, hw, -⟩ := editAround?_eq_some_iff.1 hw
  exact h.editAt? hw fun fields hk => hk.insert key hnew

theorem Keyed.unset? (h : v.Keyed) (hw : v.unset? path = some (w, former)) : w.Keyed := by
  obtain ⟨parent, key, fields, -, -, hw, -⟩ := editAround?_eq_some_iff.1 hw
  exact h.editAt? hw fun fields hk => hk.erase key

end TaggedMarkup.Value
