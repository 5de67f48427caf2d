import TaggedMarkup.Proofs.Encoding.Shapes
/-!
# The encoder, one call at a time

`encode` recurses on the value and takes what is filled in from elsewhere. Here one call is set
apart from the calls that it makes: `encodeLevel` leaves the values inside to `next`, and is `encode`
itself if that is what `next` is. `encodeWithin` then counts calls, those on values that are filled
in included, and refuses to go further down than the levels that it is given.
-/
namespace TaggedMarkup.Encoder

/-- A call of the encoder on one value. -/
abbrev Call := Value → Option Schema → Bool → Path → Except EncodeError Tree

/-! ## One call -/

variable {e : Encoder} {next other : Call}

def levelItems (next : Call) (item : Option Schema) (path : Path) :
    List Value → Nat → Except EncodeError (List Tree)
  | [], _ => .ok []
  | v :: rest, i => do
    let t ← next v item false (path.child (toString i))
    return t :: (← levelItems next item path rest (i + 1))

def levelEntry (e : Encoder) (next : Call) (o : Option ObjectType) (path : Path)
    (f : String × Value) : Except EncodeError (String × Tree) :=
  match Marker.attributeName? f.1 with
  | some name => e.attributeEntry f.1 name f.2 path
  | none =>
    if f.1 = Marker.text then e.textEntry f.2 path
    else if isReserved f.1 then mismatch path (.reserved f.1)
    else if !isElementName f.1 then mismatch path (.badName f.1)
    else (next f.2 ((declared? o f.1).map Field.schema) ((declared? o f.1).any Field.verbatim)
      (path.child f.1)).map (f.1, ·)

/-- The entries of an object, those that are filled in last. -/
def levelEntries (e : Encoder) (next : Call) (skipCase : Bool) (fields : Entries Value)
    (o : Option ObjectType) (path : Path) : Except EncodeError (Entries Tree) := do
  let present ← (ownFields skipCase fields).mapM (e.levelEntry next o path)
  e.withMissing present fields o path

def levelObject (e : Encoder) (next : Call) (collapse : Bool) (fields : Entries Value)
    (o : Option ObjectType) (path : Path) : Except EncodeError Tree := do
  let case := untypedCase? fields o
  return finishObject case o collapse (← e.levelEntries next case.isSome fields o path)

def levelCase (e : Encoder) (next : Call) (fields : Entries Value) (path : Path)
    (c : String × Schema) : Except EncodeError Tree := do
  return finishCase c.1 (← e.levelEntries next false fields (e.registry.objectOf? c.2) path)

def levelVariant (e : Encoder) (next : Call) (t : VariantType) (fields : Entries Value)
    (path : Path) : Except EncodeError Tree :=
  match explicitCase? t fields, fields with
  | _, [] => .ok .null
  | some c, (key, payload) :: _ =>
    match objectFields? payload with
    | some inner => e.levelCase next inner (path.child key) c
    | none => mismatch (path.child key) (.payloadNotObject payload.kindName)
  | none, fields => impliedCase t fields path >>= e.levelCase next fields path

/-- One call of the encoder. -/
def encodeLevel (e : Encoder) (next : Call) : Call
  | .list items, schema, _, path => do
    let item ← expectList (schema.map e.registry.resolve) (.list items) path
    return .array (← levelItems next item path items 0)
  | .object fields, schema, _, path =>
    match schema.map e.registry.resolve with
    | none | some (.primitive .unknown) => e.levelObject next true fields none path
    | some (.object o) => e.levelObject next true fields (some o) path
    | some (.variant t) => e.levelVariant next t fields path
    | some other => if fields.isEmpty then .ok .null else conflict path other (.object fields)
  -- Scalars have nothing inside.
  | v, schema, verbatim, path => e.encode v schema verbatim path

/-- One call at the root, which never collapses. -/
def rootLevel (e : Encoder) (next : Call) (v : Value) (schema : Schema) : Except EncodeError Tree :=
  match plainType? (some (e.registry.resolve schema)), objectFields? v with
  | some o, some fields => e.levelObject next false fields o .root
  | _, _ => next v (some schema) false .root

/-- Fields are filled in by a call on their defaults. -/
def fillingWith (r : Registry) (c : Convention) (next : Call) : Encoder :=
  ⟨r, c, fun f path => next (r.synthesizeField f) (some f.schema) f.verbatim path⟩

/-- The tree of a value, worked out with calls at most this many levels deep. -/
def encodeWithin (r : Registry) (c : Convention) : Nat → Call
  | 0 => fun _ _ _ _ => .error .endlessDefault
  | levels + 1 =>
    encodeLevel (fillingWith r c (encodeWithin r c levels)) (encodeWithin r c levels)

/-- The tree of the root element, worked out with calls at most this many levels below it. -/
def encodeRootWithin (r : Registry) (c : Convention) (levels : Nat) (v : Value) (schema : Schema) :
    Except EncodeError Tree :=
  rootLevel (fillingWith r c (encodeWithin r c levels)) (encodeWithin r c levels) v schema

/-! ## The call that the encoder makes -/

theorem encodeItems_eq (items : List Value) (item : Option Schema) (path : Path) (i : Nat) :
    e.encodeItems items item path i = levelItems e.encode item path items i := by
  induction items generalizing i with
  | nil => rw [encodeItems, levelItems]
  | cons v rest ih => rw [encodeItems, levelItems, ih]

theorem encodeFields_eq (skipCase : Bool) (fields : Entries Value) (o : Option ObjectType)
    (path : Path) : e.encodeFields skipCase fields o path =
      (ownFields skipCase fields).mapM (e.levelEntry e.encode o path) := by
  induction fields with
  | nil => rw [encodeFields]; rfl
  | cons f rest ih =>
    obtain ⟨key, v⟩ := f
    rw [encodeFields_cons, ownFields, List.filter_cons]
    by_cases hskip : skipCase = true ∧ key = Marker.untypedCase
    · rw [if_pos hskip, if_neg (by simp [hskip.1, hskip.2]), ih, ownFields]
    · rw [if_neg hskip, if_pos (by simpa [imp_iff_not_or] using hskip), List.mapM_cons, ih,
        ownFields]
      rfl

theorem encodePayload_eq {key : String} {payload : Value} {rest : Entries Value}
    {o : Option ObjectType} {path : Path} :
    e.encodePayload ((key, payload) :: rest) o path =
      (objectFields? payload).elim
        (mismatch (path.child key) (.payloadNotObject payload.kindName))
        (fun inner => e.levelEntries e.encode false inner o (path.child key)) := by
  cases payload with
  | object inner => rw [encodePayload, encodeFields_eq]; rfl
  | null => rw [encodePayload]; rfl
  | _ =>
    rw [encodePayload]
    · rfl
    · simp
    · simp

theorem levelEntries_untyped {skipCase : Bool} {fields : Entries Value} {path : Path} :
    e.levelEntries next skipCase fields none path =
      (ownFields skipCase fields).mapM (e.levelEntry next none path) := bind_pure _

theorem encode_variant_eq_levelVariant {fields : Entries Value} {schema : Option Schema}
    {verbatim : Bool} {path : Path} {t : VariantType}
    (ht : schema.map e.registry.resolve = some (.variant t)) :
    e.encode (.object fields) schema verbatim path = e.levelVariant e.encode t fields path := by
  rw [encode, ht]
  simp only [levelVariant]
  cases fields with
  | nil => simp
  | cons f rest =>
    obtain ⟨key, payload⟩ := f
    simp only [List.isEmpty_cons, Bool.false_eq_true, if_false]
    cases hc : explicitCase? t ((key, payload) :: rest) with
    | some c =>
      simp only [encodePayload_eq]
      cases objectFields? payload <;> rfl
    | none =>
      refine congrArg (impliedCase t _ path >>= ·) (funext fun c => ?_)
      simp only [encodeFields_eq, levelCase, levelEntries, bind_assoc]

/-- The encoder makes one call that leaves the values inside to the encoder. -/
theorem encode_eq_encodeLevel (v : Value) (schema : Option Schema) (verbatim : Bool) (path : Path) :
    e.encode v schema verbatim path = e.encodeLevel e.encode v schema verbatim path := by
  cases v with
  | list items => simp only [encode, encodeLevel, encodeItems_eq]
  | object fields =>
    cases hresolved : schema.map e.registry.resolve with
    | none =>
      simp only [encode, encodeLevel, hresolved, encodeFields_eq, levelObject, levelEntries_untyped]
    | some resolved =>
      cases resolved with
      | variant t => rw [encode_variant_eq_levelVariant hresolved, encodeLevel, hresolved]
      | primitive kind =>
        cases kind <;> simp only [encode, encodeLevel, hresolved, encodeFields_eq, levelObject,
          levelEntries_untyped]
      | object o =>
        simp only [encode, encodeLevel, hresolved, encodeFields_eq, levelObject, levelEntries,
          bind_assoc]
      | list item => simp only [encode, encodeLevel, hresolved]
  | _ => rfl

theorem encodeRoot_eq_rootLevel (v : Value) (schema : Schema) :
    e.encodeRoot v schema = e.rootLevel e.encode v schema := by
  have hbody : ∀ (fields : Entries Value) (o : Option ObjectType), (do
      let present ← e.encodeFields (untypedCase? fields o).isSome fields o .root
      return finishObject (untypedCase? fields o) o false
        (← e.withMissing present fields o .root)) = e.levelObject e.encode false fields o .root := by
    intro fields o
    simp only [encodeFields_eq, levelObject, levelEntries, bind_assoc]
  cases hresolved : e.registry.resolve schema with
  | object o =>
    cases v <;>
      simp only [encodeRoot, rootLevel, hresolved, plainType?, objectFields?, ← hbody] <;> rfl
  | primitive kind =>
    cases kind <;> cases v <;>
      simp only [encodeRoot, rootLevel, hresolved, plainType?, objectFields?, ← hbody] <;> rfl
  | _ => cases v <;> simp only [encodeRoot, rootLevel, hresolved, plainType?, objectFields?]

/-! ## Calls that end alike -/

section

variable {α β : Type}

/-- Both end the same way, and not for want of depth. -/
def EndsAs (x y : Except EncodeError α) : Prop := x = y ∧ y ≠ .error .endlessDefault

theorem EndsAs.ok (a : α) : EndsAs (.ok a : Except EncodeError α) (.ok a) := ⟨rfl, nofun⟩

theorem EndsAs.mismatch (path : Path) (reason : Mismatch) :
    EndsAs (Encoder.mismatch path reason : Except EncodeError α) (Encoder.mismatch path reason) :=
  ⟨rfl, nofun⟩

theorem EndsAs.bind {x y : Except EncodeError α} {f g : α → Except EncodeError β}
    (h : EndsAs x y) (hfg : ∀ a, y = .ok a → EndsAs (f a) (g a)) :
    EndsAs (x >>= f) (y >>= g) := by
  obtain ⟨rfl, hy⟩ := h
  cases x with
  | ok a => exact hfg a rfl
  | error err => exact ⟨rfl, fun heq => hy (congrArg Except.error (Except.error.inj heq))⟩

theorem EndsAs.map {x y : Except EncodeError α} (h : EndsAs x y) (f : α → β) :
    EndsAs (x.map f) (y.map f) := by
  obtain ⟨rfl, hy⟩ := h
  cases x with
  | ok a => exact .ok (f a)
  | error err => exact ⟨rfl, fun heq => hy (congrArg Except.error (Except.error.inj heq))⟩

theorem EndsAs.mapM {f g : α → Except EncodeError β} {l : List α}
    (h : ∀ a ∈ l, EndsAs (f a) (g a)) : EndsAs (l.mapM f) (l.mapM g) := by
  induction l with
  | nil => exact .ok []
  | cons a rest ih =>
    obtain ⟨ha, hrest⟩ := List.forall_mem_cons.1 h
    simp only [List.mapM_cons]
    exact ha.bind fun b _ => (ih hrest).bind fun bs _ => .ok (b :: bs)

end

theorem expectScalar_endsAs (resolved : Option Resolved) (v : Value) (path : Path) :
    EndsAs (expectScalar resolved v path) (expectScalar resolved v path) := by
  unfold expectScalar
  split
  · exact .mismatch _ _
  · exact .mismatch _ _
  · exact .mismatch _ _
  · exact .ok ()

theorem expectList_endsAs (resolved : Option Resolved) (v : Value) (path : Path) :
    EndsAs (expectList resolved v path) (expectList resolved v path) := by
  unfold expectList
  split
  · exact .ok _
  · exact .ok _
  · exact .ok _
  · exact .mismatch _ _

theorem impliedCase_endsAs (t : VariantType) (fields : Entries Value) (path : Path) :
    EndsAs (impliedCase t fields path) (impliedCase t fields path) := by
  unfold impliedCase
  split
  · exact .ok _
  · exact .mismatch _ _
  · exact .mismatch _ _

theorem attributeEntry_endsAs (key name : String) (v : Value) (path : Path) :
    EndsAs (e.attributeEntry key name v path) (e.attributeEntry key name v path) := by
  unfold attributeEntry
  split
  · exact .mismatch _ _
  · split
    · exact .mismatch _ _
    · exact .ok _

theorem textEntry_endsAs (v : Value) (path : Path) :
    EndsAs (e.textEntry v path) (e.textEntry v path) := by
  unfold textEntry
  split
  · exact .mismatch _ _
  · exact .ok _

variable {r : Registry} {c : Convention} {fill refill : Field → Path → Except EncodeError Tree}
  {o : Option ObjectType} {fields : Entries Value}

/-- The calls on the fields of an object, and on those that it leaves out, end alike. -/
structure FieldsEndAs (next other : Call) (fill refill : Field → Path → Except EncodeError Tree)
    (o : Option ObjectType) (fields : Entries Value) : Prop where
  inner : ∀ key v, (key, v) ∈ fields → IsFieldName key → ∀ verbatim path,
    EndsAs (next v ((declared? o key).map Field.schema) verbatim path)
      (other v ((declared? o key).map Field.schema) verbatim path)
  filled : ∀ t, o = some t → ∀ name f, (name, f) ∈ t.fields → f.optional = false →
    name ∉ fields.keys → ∀ path, EndsAs (fill f path) (refill f path)

theorem levelEntry_endsAs {path : Path} {f : String × Value}
    (h : IsFieldName f.1 → ∀ verbatim path,
      EndsAs (next f.2 ((declared? o f.1).map Field.schema) verbatim path)
        (other f.2 ((declared? o f.1).map Field.schema) verbatim path)) :
    EndsAs (levelEntry ⟨r, c, fill⟩ next o path f) (levelEntry ⟨r, c, refill⟩ other o path f) := by
  unfold levelEntry
  split
  · exact attributeEntry_endsAs (e := ⟨r, c, fill⟩) _ _ _ _
  · split_ifs with htext hreserved hname
    · exact textEntry_endsAs (e := ⟨r, c, fill⟩) _ _
    · exact .mismatch _ _
    · exact .mismatch _ _
    · exact (h ⟨by simpa using hname, by simpa using hreserved⟩ _ _).map _

theorem missingEntries_endsAs {present : List String} {path : Path} {declared : Entries Field}
    (h : ∀ name f, (name, f) ∈ declared → f.optional = false → name ∉ present → ∀ path,
      EndsAs (fill f path) (refill f path)) :
    EndsAs (missingEntries ⟨r, c, fill⟩ present path declared)
      (missingEntries ⟨r, c, refill⟩ present path declared) := by
  induction declared with
  | nil => exact .ok []
  | cons f rest ih =>
    obtain ⟨name, f⟩ := f
    obtain ⟨hf, hrest⟩ := Entries.forall_mem_cons.1 h
    simp only [missingEntries]
    split_ifs with hskip
    · exact ih hrest
    · obtain ⟨hnew, hrequired⟩ := not_or.1 hskip
      exact (hf (by simpa using hrequired) hnew _).bind fun t _ =>
        (ih hrest).bind fun ts _ => .ok ((name, t) :: ts)

theorem levelEntries_endsAs {skipCase : Bool} {path : Path}
    (h : FieldsEndAs next other fill refill o fields) :
    EndsAs (levelEntries ⟨r, c, fill⟩ next skipCase fields o path)
      (levelEntries ⟨r, c, refill⟩ other skipCase fields o path) := by
  refine EndsAs.bind (.mapM fun f hf => ?_) fun present _ => ?_
  · exact levelEntry_endsAs (h.inner f.1 f.2 (List.mem_of_mem_filter hf))
  · cases o with
    | none => exact .ok present
    | some t => exact (missingEntries_endsAs (h.filled t rfl)).bind fun _ _ => .ok _

/-- The fields that a value is encoded with, its own or those of the payload of the case that it
names, and the object type that they are encoded under. A null payload stands for no fields. -/
def body? (r : Registry) (schema : Option Schema) :
    Value → Option (Option ObjectType × Entries Value)
  | .object fields =>
    match schema.map r.resolve with
    | some (.variant t) =>
      match explicitCase? t fields, fields with
      | _, [] => none
      | some c, (_, payload) :: _ =>
        (objectFields? payload).map fun inner => (r.objectOf? c.2, inner)
      | none, fields => t.soleCase?.map fun c => (r.objectOf? c.2, fields)
    | resolved => (plainType? resolved).map fun o => (o, fields)
  | _ => none

theorem levelCase_endsAs {path : Path} {case : String × Schema}
    (h : FieldsEndAs next other fill refill (r.objectOf? case.2) fields) :
    EndsAs (levelCase ⟨r, c, fill⟩ next fields path case)
      (levelCase ⟨r, c, refill⟩ other fields path case) :=
  (levelEntries_endsAs h).bind fun _ _ => .ok _

theorem levelObject_endsAs {collapse : Bool} {path : Path}
    (h : FieldsEndAs next other fill refill o fields) :
    EndsAs (levelObject ⟨r, c, fill⟩ next collapse fields o path)
      (levelObject ⟨r, c, refill⟩ other collapse fields o path) :=
  (levelEntries_endsAs h).bind fun _ _ => .ok _

theorem levelItems_endsAs {item : Option Schema} {items : List Value} {path : Path} {i : Nat}
    (h : ∀ v ∈ items, ∀ path, EndsAs (next v item false path) (other v item false path)) :
    EndsAs (levelItems next item path items i) (levelItems other item path items i) := by
  induction items generalizing i with
  | nil => exact .ok []
  | cons v rest ih =>
    obtain ⟨hv, hrest⟩ := List.forall_mem_cons.1 h
    simp only [levelItems]
    exact (hv _).bind fun t _ => (ih hrest).bind fun ts _ => .ok (t :: ts)

theorem levelVariant_endsAs {schema : Option Schema} {t : VariantType} {path : Path}
    (ht : schema.map r.resolve = some (.variant t))
    (h : ∀ o inner, body? r schema (.object fields) = some (o, inner) →
      FieldsEndAs next other fill refill o inner) :
    EndsAs (levelVariant ⟨r, c, fill⟩ next t fields path)
      (levelVariant ⟨r, c, refill⟩ other t fields path) := by
  cases fields with
  | nil =>
    simp only [levelVariant]
    exact .ok _
  | cons f rest =>
    obtain ⟨key, payload⟩ := f
    cases hc : explicitCase? t ((key, payload) :: rest) with
    | some case =>
      simp only [body?, ht, hc] at h
      simp only [levelVariant, hc]
      cases hp : objectFields? payload with
      | some inner => exact levelCase_endsAs (h (r.objectOf? case.2) inner (by simp [hp]))
      | none => exact .mismatch _ _
    | none =>
      simp only [body?, ht, hc] at h
      simp only [levelVariant, hc]
      refine (impliedCase_endsAs t _ path).bind fun case hcase => levelCase_endsAs (h _ _ ?_)
      rw [impliedCase_eq_ok_iff.1 hcase]
      rfl

/-- A call ends as another does if the calls that it makes do. -/
theorem encodeLevel_endsAs {schema : Option Schema} {v : Value} {verbatim : Bool} {path : Path}
    (hbody : ∀ o fields, body? r schema v = some (o, fields) →
      FieldsEndAs next other fill refill o fields)
    (hitems : ∀ items item, v = .list items → itemType? (schema.map r.resolve) = some item →
      ∀ w ∈ items, ∀ path, EndsAs (next w item false path) (other w item false path)) :
    EndsAs (encodeLevel ⟨r, c, fill⟩ next v schema verbatim path)
      (encodeLevel ⟨r, c, refill⟩ other v schema verbatim path) := by
  cases v with
  | reference _ => exact .ok _
  | null => exact .ok _
  | bool _ => exact (expectScalar_endsAs _ _ _).bind fun _ _ => .ok _
  | number _ => exact (expectScalar_endsAs _ _ _).bind fun _ _ => .ok _
  | string _ => exact (expectScalar_endsAs _ _ _).bind fun _ _ => .ok _
  | list items =>
    refine (expectList_endsAs _ _ _).bind fun item hitem => ?_
    exact (levelItems_endsAs (hitems items item rfl (expectList_eq_ok_iff.1 hitem))).bind
      fun _ _ => .ok _
  | object fields =>
    simp only [encodeLevel]
    cases hresolved : schema.map r.resolve with
    | none => exact levelObject_endsAs (hbody none fields (by simp [body?, hresolved, plainType?]))
    | some resolved =>
      cases resolved with
      | variant t => exact levelVariant_endsAs hresolved hbody
      | object o =>
        exact levelObject_endsAs (hbody (some o) fields (by simp [body?, hresolved, plainType?]))
      | list item =>
        dsimp only
        split
        · exact .ok _
        · exact .mismatch _ _
      | primitive kind =>
        cases kind with
        | unknown =>
          exact levelObject_endsAs (hbody none fields (by simp [body?, hresolved, plainType?]))
        | _ =>
          dsimp only
          split
          · exact .ok _
          · exact .mismatch _ _

theorem rootLevel_endsAs {schema : Schema} {v : Value}
    (hbody : ∀ o fields, plainType? (some (r.resolve schema)) = some o →
      objectFields? v = some fields → FieldsEndAs next other fill refill o fields)
    (hself : ∀ path, EndsAs (next v (some schema) false path) (other v (some schema) false path)) :
    EndsAs (rootLevel ⟨r, c, fill⟩ next v schema) (rootLevel ⟨r, c, refill⟩ other v schema) := by
  simp only [rootLevel]
  split
  · next o fields ho hfields => exact levelObject_endsAs (hbody o fields ho hfields)
  · exact hself .root

end TaggedMarkup.Encoder
