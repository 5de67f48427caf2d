import TaggedMarkup.Proofs.Encoding.Levels
import TaggedMarkup.Proofs.Restoring.Strings
/-!
# What stops an encoding

If the default literals of a registry are encoded, then whatever a value leaves out can be filled
in. So only what a value has can stop its encoding: an object stops at the first of its own fields
that does, a list at the first of its items, and the root element like any other.
-/
namespace TaggedMarkup.Encoder

/-! ## Errors -/

section

variable {ε α β : Type}

/-- The error that a computation ends with, if it does. -/
def fault? : Except ε α → Option ε
  | .ok _ => none
  | .error err => some err

theorem fault?_eq_none_iff {x : Except ε α} : fault? x = none ↔ ∃ a, x = .ok a := by
  cases x <;> simp [fault?]

theorem fault?_eq_some_iff {x : Except ε α} {err : ε} : fault? x = some err ↔ x = .error err := by
  cases x <;> simp [fault?]

theorem fault?_map (x : Except ε α) (f : α → β) : fault? (x.map f) = fault? x := by
  cases x <;> rfl

/-- What follows only counts if it can end with an error. -/
theorem fault?_bind {x : Except ε α} {f : α → Except ε β} (h : ∀ a, ∃ b, f a = .ok b) :
    fault? (x >>= f) = fault? x := by
  cases x with
  | error err => rfl
  | ok a => exact fault?_eq_none_iff.2 (h a)

theorem fault?_bind_pure (x : Except ε α) (f : α → β) :
    fault? (x >>= fun a => pure (f a)) = fault? x := fault?_bind fun a => ⟨f a, rfl⟩

theorem fault?_mapM {γ : Type} (f : γ → Except ε β) (l : List γ) :
    fault? (l.mapM f) = l.findSome? fun a => fault? (f a) := by
  induction l with
  | nil => rfl
  | cons a rest ih =>
    rw [List.mapM_cons, List.findSome?_cons, ← ih]
    cases f a with
    | error err => rfl
    | ok b => exact fault?_bind_pure _ _

end

variable {r : Registry} {c : Convention} {o : Option ObjectType} {path : Path}
  {schema : Option Schema} {verbatim : Bool} {fields : Entries Value}

/-! ## Fields -/

theorem mem_ownFields {skipCase : Bool} {f : String × Value} :
    f ∈ ownFields skipCase fields ↔
      f ∈ fields ∧ (skipCase = true → f.1 ≠ Marker.untypedCase) := by
  rw [ownFields, List.mem_filter]
  cases skipCase <;> simp

/-- What stops the encoding of the value of a field. -/
def fieldFault (e : Encoder) (o : Option ObjectType) (path : Path) (key : String) (v : Value) :
    Option EncodeError :=
  fault? (e.encode v ((declared? o key).map Field.schema) ((declared? o key).any Field.verbatim)
    (path.child key))

/-- What stops the encoding of fields: the first of them that is stopped. -/
def fieldsFault (e : Encoder) (o : Option ObjectType) (skipCase : Bool) (path : Path)
    (fields : Entries Value) : Option EncodeError :=
  (ownFields skipCase fields).findSome? fun f => fault? (e.encodeEntry o path f.1 f.2)

section

variable (hr : r.WellKeyed) (hlit : EncodesLiterals r c)

include hr hlit

/-- What is filled in stops nothing. -/
theorem exists_filledIn (ho : ∀ t, o = some t → .object t ∈ r.types) (own : Entries Tree) :
    ∃ entries, (ofRegistry r c).withMissing own fields o path = .ok entries := by
  obtain ⟨filled, hfilled⟩ : ∃ filled,
      List.Forall₂ (Fills (ofRegistry r c) path) (missingFields o fields.keys) filled := by
    refine exists_forall₂ fun f hf => ?_
    obtain ⟨⟨t, ht, hft⟩, -, -⟩ := mem_missingFields.1 hf
    obtain ⟨u, hu⟩ := exists_fill hr hlit (ho t ht) hft (path.child f.1)
    exact ⟨(f.1, u), rfl, hu⟩
  exact ⟨_, withMissing_eq_ok_iff.2 ⟨filled, hfilled, rfl⟩⟩

theorem fault?_levelEntries (ho : ∀ t, o = some t → .object t ∈ r.types) (skipCase : Bool) :
    fault? ((ofRegistry r c).levelEntries (ofRegistry r c).encode skipCase fields o path) =
      (ofRegistry r c).fieldsFault o skipCase path fields := by
  rw [levelEntries, fault?_bind fun own => exists_filledIn hr hlit ho own, fault?_mapM]
  rfl

theorem fault?_levelObject (ho : ∀ t, o = some t → .object t ∈ r.types) (collapse : Bool) :
    fault? ((ofRegistry r c).levelObject (ofRegistry r c).encode collapse fields o path) =
      (ofRegistry r c).fieldsFault o (untypedCase? fields o).isSome path fields := by
  rw [← fault?_levelEntries hr hlit ho]
  exact fault?_bind_pure _ _

theorem fault?_levelCase (case : String × Schema) :
    fault? ((ofRegistry r c).levelCase (ofRegistry r c).encode fields path case) =
      (ofRegistry r c).fieldsFault (r.objectOf? case.2) false path fields := by
  rw [← fault?_levelEntries hr hlit fun t ht => Registry.mem_types_of_objectOf? ht]
  exact fault?_bind_pure _ _

/-! ## Objects -/

theorem fault?_plain (h : plainType? (schema.map r.resolve) = some o) :
    fault? ((ofRegistry r c).encode (.object fields) schema verbatim path) =
      (ofRegistry r c).fieldsFault o (untypedCase? fields o).isSome path fields := by
  have hbody : (ofRegistry r c).body o true fields path =
      (ofRegistry r c).levelObject (ofRegistry r c).encode true fields o path := by
    simp only [body, encodeFields_eq, levelObject, levelEntries, bind_assoc]
  rw [encode_object_plain (e := ofRegistry r c) h, hbody]
  exact fault?_levelObject hr hlit (fun t => mem_types_of_plainType? h) true

section

variable {t : VariantType} (hs : schema.map r.resolve = some (.variant t))

include hs

theorem fault?_payload {case : String} {s : Schema} (hinline : t.isInline = false)
    (hcase : t.case? case = some s) (payload : Value) :
    fault? ((ofRegistry r c).encode (.object [(case, payload)]) schema verbatim path) =
      (objectFields? payload).elim
        (some (.mismatch (path.child case) (.payloadNotObject payload.kindName)))
        ((ofRegistry r c).fieldsFault (r.objectOf? s) false (path.child case)) := by
  have hexplicit : explicitCase? t [(case, payload)] = some (case, s) :=
    explicitCase?_eq_some_iff.2 ⟨hinline, hcase, payload, rfl⟩
  rw [encode_variant_eq_levelVariant (e := ofRegistry r c) hs]
  simp only [levelVariant, hexplicit]
  cases objectFields? payload with
  | none => rfl
  | some inner => exact fault?_levelCase hr hlit (case, s)

theorem fault?_sole {case : String × Schema} (hne : fields ≠ [])
    (hnot : explicitCase? t fields = none) (hsole : t.soleCase? = some case) :
    fault? ((ofRegistry r c).encode (.object fields) schema verbatim path) =
      (ofRegistry r c).fieldsFault (r.objectOf? case.2) false path fields := by
  obtain ⟨f, rest, rfl⟩ := List.exists_cons_of_ne_nil hne
  have hvariant : (ofRegistry r c).levelVariant (ofRegistry r c).encode t (f :: rest) path =
      (ofRegistry r c).levelCase (ofRegistry r c).encode (f :: rest) path case := by
    simp only [levelVariant, hnot, impliedCase_eq_ok_iff.2 hsole]
    rfl
  rw [encode_variant_eq_levelVariant (e := ofRegistry r c) hs, hvariant,
    fault?_levelCase hr hlit]

end

/-- The root element is stopped by what stops the element of any place of its schema. -/
theorem fault?_encodeRoot (v : Value) (s : Schema) :
    fault? ((ofRegistry r c).encodeRoot v s) =
      fault? ((ofRegistry r c).encode v (some s) false .root) := by
  rw [encodeRoot_eq_rootLevel, rootLevel]
  split
  · next o fields ht hv =>
    have hplain : plainType? ((some s).map r.resolve) = some o := ht
    rw [fault?_levelObject hr hlit fun t =>
      mem_types_of_plainType? hplain]
    cases v with
    | object own =>
      obtain rfl := Option.some.inj hv
      exact (fault?_plain hr hlit hplain).symm
    | null =>
      -- A null is encoded as such elsewhere; at the root its fields are all filled in.
      obtain rfl := Option.some.inj hv
      rfl
    | _ => cases hv
  · rfl

end

/-! ## Variants without a case, and other places -/

section

variable {e : Encoder}

theorem fault?_caseless {t : VariantType} (hs : schema.map e.registry.resolve = some (.variant t))
    (hne : fields ≠ []) (hnot : explicitCase? t fields = none) (hsole : t.soleCase? = none) :
    ∃ reason, fault? (e.encode (.object fields) schema verbatim path) =
      some (.mismatch path reason) := by
  obtain ⟨f, rest, rfl⟩ := List.exists_cons_of_ne_nil hne
  have himplied : ∃ reason, impliedCase t (f :: rest) path = mismatch path reason := by
    unfold impliedCase
    split
    · next c hc => cases hsole.symm.trans hc
    · exact ⟨_, rfl⟩
    · exact ⟨_, rfl⟩
  obtain ⟨reason, hreason⟩ := himplied
  refine ⟨reason, ?_⟩
  rw [encode_variant_eq_levelVariant hs]
  simp only [levelVariant, hnot, hreason]
  rfl

/-- Whether a case is named is a matter of keys. -/
theorem explicitCase?_of_keys_eq (t : VariantType) {fs : Entries Value}
    (h : fs.keys = fields.keys) : explicitCase? t fs = explicitCase? t fields := by
  match fs, fields with
  | [], [] => rfl
  | [(key, v)], [(key', w)] =>
    obtain rfl : key = key' := List.singleton_inj.1 h
    unfold explicitCase?
    cases t.isInline <;> rfl
  | _ :: _ :: _, _ :: _ :: _ => unfold explicitCase?; cases t.isInline <;> rfl
  | [], _ :: _ | _ :: _, [] | [_], _ :: _ :: _ | _ :: _ :: _, [_] => simp [Entries.keys] at h

theorem encode_variant_nil {t : VariantType}
    (hs : schema.map e.registry.resolve = some (.variant t)) :
    e.encode (.object []) schema verbatim path = .ok .null := by
  rw [encode, hs]
  rfl

/-- Where a scalar or a list is asked for, an object is only accepted if it is empty. -/
theorem fault?_misplaced (hplain : plainType? (schema.map e.registry.resolve) = none)
    (hvariant : ¬ ∃ t, schema.map e.registry.resolve = some (.variant t)) :
    fault? (e.encode (.object fields) schema verbatim path) = none ∨
      ∃ reason, fault? (e.encode (.object fields) schema verbatim path) =
        some (.mismatch path reason) := by
  have hother : ∀ resolved : Resolved,
      fault? (if fields.isEmpty then .ok Tree.null else conflict path resolved (.object fields)) =
        none ∨
      ∃ reason, fault? (if fields.isEmpty then .ok Tree.null
        else conflict path resolved (.object fields)) = some (.mismatch path reason) := by
    intro resolved
    cases fields with
    | nil => exact .inl rfl
    | cons f rest => exact .inr ⟨_, rfl⟩
  rw [encode]
  match hresolved : schema.map e.registry.resolve with
  | none | some (.primitive .unknown) | some (.object o) =>
    rw [hresolved] at hplain
    cases hplain
  | some (.variant t) => exact absurd ⟨t, hresolved⟩ hvariant
  | some (.primitive .string) | some (.primitive .number) | some (.primitive .boolean)
  | some (.list item) => exact hother _

/-! ## Lists and scalars -/

theorem fault?_levelItems (next : Call) (item : Option Schema) (items : List Value) (i : Nat) :
    fault? (levelItems next item path items i) =
      (items.zipIdx i).findSome? fun v =>
        fault? (next v.1 item false (path.child (toString v.2))) := by
  induction items generalizing i with
  | nil => rfl
  | cons v rest ih =>
    rw [levelItems, List.zipIdx_cons, List.findSome?_cons, ← ih]
    cases next v item false (path.child (toString i)) with
    | error err => rfl
    | ok t => exact fault?_bind_pure _ _

theorem fault?_list {items : List Value} {item : Option Schema}
    (h : itemType? (schema.map e.registry.resolve) = some item) :
    fault? (e.encode (.list items) schema verbatim path) = items.zipIdx.findSome? fun v =>
      fault? (e.encode v.1 item false (path.child (toString v.2))) := by
  rw [encode, expectList_eq_ok_iff.2 h, ← fault?_levelItems, ← encodeItems_eq]
  exact fault?_bind_pure _ _

theorem fault?_list_of_none {items : List Value}
    (h : itemType? (schema.map e.registry.resolve) = none) :
    ∃ reason, fault? (e.encode (.list items) schema verbatim path) =
      some (.mismatch path reason) := by
  have hexpect : ∃ reason, expectList (schema.map e.registry.resolve) (.list items) path =
      mismatch path reason := by
    unfold expectList
    split
    · next hnone => rw [hnone] at h; cases h
    · next hunknown => rw [hunknown] at h; cases h
    · next hlist => rw [hlist] at h; cases h
    · exact ⟨_, rfl⟩
  obtain ⟨reason, hreason⟩ := hexpect
  exact ⟨reason, by rw [encode, hreason]; rfl⟩

/-- Other values are stopped where they stand or not at all. -/
theorem fault?_scalar {v : Value} (hobject : ∀ fields, v ≠ .object fields)
    (hlist : ∀ items, v ≠ .list items) :
    fault? (e.encode v schema verbatim path) = none ∨
      ∃ reason, fault? (e.encode v schema verbatim path) = some (.mismatch path reason) := by
  have hexpect : ∀ w, fault? (expectScalar (schema.map e.registry.resolve) w path) = none ∨
      ∃ reason, fault? (expectScalar (schema.map e.registry.resolve) w path) =
        some (.mismatch path reason) := by
    intro w
    unfold expectScalar
    split
    · exact .inr ⟨_, rfl⟩
    · exact .inr ⟨_, rfl⟩
    · exact .inr ⟨_, rfl⟩
    · exact .inl rfl
  cases v with
  | object fields => exact absurd rfl (hobject fields)
  | list items => exact absurd rfl (hlist items)
  | reference | null => exact .inl rfl
  | _ =>
    rw [encode, fault?_bind_pure]
    exact hexpect _

/-- A field is stopped at the object that has it, or where its own value is. -/
theorem fault?_encodeEntry {key : String} {v : Value} {err : EncodeError}
    (h : fault? (e.encodeEntry o path key v) = some err) :
    (∃ reason, err = .mismatch path reason) ∨
      IsFieldName key ∧ e.fieldFault o path key v = some err := by
  have hwire : ∀ {α : Type} {x : Except EncodeError α}, (∃ a, x = .ok a) ∨
      (∃ reason, x = mismatch path reason) → fault? x = some err →
        ∃ reason, err = .mismatch path reason := by
    rintro α x (⟨a, rfl⟩ | ⟨reason, rfl⟩) herr
    · cases herr
    · exact ⟨reason, (Option.some.inj herr).symm⟩
  unfold encodeEntry at h
  split at h
  · refine .inl (hwire ?_ h)
    unfold attributeEntry
    split
    · exact .inr ⟨_, rfl⟩
    · split
      · exact .inr ⟨_, rfl⟩
      · exact .inl ⟨_, rfl⟩
  · split_ifs at h with htext hreserved hname
    · refine .inl (hwire ?_ h)
      unfold textEntry
      split
      · exact .inr ⟨_, rfl⟩
      · exact .inl ⟨_, rfl⟩
    · exact .inl (hwire (.inr ⟨_, rfl⟩) h)
    · exact .inl (hwire (.inr ⟨_, rfl⟩) h)
    · rw [fault?_map] at h
      exact .inr ⟨⟨by simpa using hname, by simpa using hreserved⟩, h⟩

end

end TaggedMarkup.Encoder
