import TaggedMarkup.Proofs.Stability.Scalars
/-!
# Values that come back

A value comes back if nothing in it is empty but the payloads of cases, its references are the only
texts that lead to something in the store, numbers stand where numbers are read, attributes are
strings, and character data is read as what it is. `isFaithful` checks that for a value of a schema.
`Restores` says what coming back is: every scalar as it is, every item in its place and every field
under its key. An object may have more fields then, all of them filled in by its type, and a payload
that did not name its case does.
-/
namespace TaggedMarkup

open Encoder Markup TaggedMarkup.Tree

/-! ## Conditions -/

namespace Value

section

variable (e : Encoder) (store : Store)

/-- A reference is found under the text that it is written as, and another text leads to none. -/
def isFound : Value → Bool
  | .reference q => decide (e.convention.spelled? store (e.convention.render q) = some q)
  | v => v.scalarText?.all fun text => (e.convention.spelled? store text).isNone

/-- Character data that is there and is read as what it is. -/
def isFaithfulText (v : Value) : Bool :=
  v.hasText && v.isFound e store && v.asString?.all fun text =>
    decide (text ≠ "") && (Number.canonical? text).isNone && (canonicalBool? text).isNone

/-- The element of an object has something beside character data, and reading does not cut its case. -/
def isFaithfulElement (fields : Entries Value) (o : Option ObjectType) : Bool :=
  (!(Value.object fields).isText ||
    o.any fun u => u.tag.isSome || u.fields.any fun f => !f.2.optional) &&
      (untypedCase? fields o).all fun case => decide (Unpadded case)

mutual

/-- A value of a schema that comes back. -/
def isFaithful : Value → Option Schema → Bool
  | .null, _ => false
  | .list items, s =>
    !items.isEmpty && areFaithful items (itemType? (s.map e.registry.resolve)).join
  | .object fields, s =>
    !fields.isEmpty && match s.map e.registry.resolve with
    | some (.variant v) =>
      match explicitCase? v fields with
      | some (_, schema) => isFaithfulPayload fields (e.registry.objectOf? schema)
      | none => haveFaithful fields (v.soleCase?.bind fun c => e.registry.objectOf? c.2)
    | resolved =>
      isFaithfulElement fields (plainType? resolved).join &&
        haveFaithful fields (plainType? resolved).join
  | .number n, s => (Value.number n).isFound e store && !takesWords (s.map e.registry.resolve)
  | v, _ => v.isFound e store

def areFaithful : List Value → Option Schema → Bool
  | [], _ => true
  | v :: rest, item => isFaithful v item && areFaithful rest item

def haveFaithful : List (String × Value) → Option ObjectType → Bool
  | [], _ => true
  | (key, v) :: rest, o =>
    (if Marker.isAttribute key then v.asString?.isSome
      else if key = Marker.text then v.isFaithfulText e store
      else isFaithful v ((declared? o key).map Field.schema)) && haveFaithful rest o

/-- The payload of a case, which may be null or empty. -/
def isFaithfulPayload : List (String × Value) → Option ObjectType → Bool
  | (_, .object inner) :: _, o => haveFaithful inner o
  | (_, .null) :: _, _ => true
  | _, _ => false

end

end

variable {e : Encoder} {store : Store} {s : Option Schema} {o : Option ObjectType}
  {fields : Entries Value}

/-- A reference to an entry whose spelling parses and that the store holds is found. -/
theorem isFound_reference {p : EntryPath} (hp : e.convention.parse? p.display = some p)
    (h : (e.convention.resolve? store p).isSome) :
    (Value.reference (e.convention.reference p)).isFound e store = true := by
  have hrender : e.convention.render (e.convention.reference p) = p.display :=
    Convention.render_reference (Convention.parse?_eq_some hp).2.2.2
  refine decide_eq_true ?_
  rw [hrender, Convention.spelled?, hp, Option.bind_some]
  unfold Convention.resolve? at h ⊢
  split at h
  · split at h
    · next hentry => rw [if_pos hentry]
    · cases h
  · cases h

theorem areFaithful_iff {items : List Value} :
    areFaithful e store items s = true ↔ ∀ v ∈ items, v.isFaithful e store s = true := by
  induction items with
  | nil => simp [areFaithful]
  | cons v rest ih => simp [areFaithful, ih]

theorem haveFaithful_iff :
    haveFaithful e store fields o = true ↔ ∀ key v, (key, v) ∈ fields →
      (if Marker.isAttribute key then v.asString?.isSome
        else if key = Marker.text then v.isFaithfulText e store
        else v.isFaithful e store ((declared? o key).map Field.schema)) = true := by
  induction fields with
  | nil => simp [haveFaithful]
  | cons f rest ih =>
    obtain ⟨key, v⟩ := f
    rw [Entries.forall_mem_cons, ← ih, haveFaithful, Bool.and_eq_true]

theorem haveFaithful_of_payload {case : String} {payload : Value} {inner : Entries Value}
    (h : isFaithfulPayload e store [(case, payload)] o = true)
    (hp : objectFields? payload = some inner) : haveFaithful e store inner o = true := by
  cases payload with
  | null =>
    obtain rfl := Option.some.inj hp
    rfl
  | object fields =>
    obtain rfl := Option.some.inj hp
    exact h
  | _ => cases hp

section

variable (h : (Value.object fields).isFaithful e store s = true)

include h

theorem ne_nil_of_isFaithful : fields ≠ [] := by
  rintro rfl
  cases h

theorem isFaithful_plain (hs : plainType? (s.map e.registry.resolve) = some o) :
    isFaithfulElement fields o = true ∧ haveFaithful e store fields o = true := by
  rw [isFaithful, Bool.and_eq_true] at h
  obtain ⟨-, h⟩ := h
  generalize s.map e.registry.resolve = resolved at h hs
  match resolved with
  | none => exact Option.some.inj hs ▸ Bool.and_eq_true_iff.1 h
  | some (.primitive .unknown) => exact Option.some.inj hs ▸ Bool.and_eq_true_iff.1 h
  | some (.object u) => exact Option.some.inj hs ▸ Bool.and_eq_true_iff.1 h

variable {v : VariantType} {case : String} {schema : Schema}
  (hs : s.map e.registry.resolve = some (.variant v))

include hs

theorem isFaithful_explicit (hc : explicitCase? v fields = some (case, schema)) {payload : Value}
    (hf : fields = [(case, payload)]) {inner : Entries Value}
    (hp : objectFields? payload = some inner) :
    haveFaithful e store inner (e.registry.objectOf? schema) = true := by
  rw [isFaithful, Bool.and_eq_true, hs] at h
  obtain ⟨-, h⟩ := h
  simp only [hc] at h
  rw [hf] at h
  exact haveFaithful_of_payload h hp

theorem isFaithful_implied (hc : explicitCase? v fields = none)
    (hsole : v.soleCase? = some (case, schema)) :
    haveFaithful e store fields (e.registry.objectOf? schema) = true := by
  rw [isFaithful, Bool.and_eq_true, hs] at h
  obtain ⟨-, h⟩ := h
  simpa only [hc, hsole, Option.bind_some] using h

end

theorem isFound_of_isFaithful {v : Value} (hv : v.hasText = true)
    (h : v.isFaithful e store s = true) : v.isFound e store = true := by
  cases v with
  | null | list _ | object _ => cases hv
  | number n =>
    rw [isFaithful, Bool.and_eq_true] at h
    exact h.1
  | _ => exact h

/-- Nothing that comes back is empty. -/
theorem isEmptyContainer_of_isFaithful {v : Value} (h : v.isFaithful e store s = true) :
    v.isEmptyContainer = false := by
  cases v with
  | list items =>
    rw [isFaithful, Bool.and_eq_true] at h
    simpa [isEmptyContainer] using h.1
  | object fields => simpa [isEmptyContainer] using ne_nil_of_isFaithful h
  | _ => rfl

theorem isFaithful_list {items : List Value} (h : (Value.list items).isFaithful e store s = true)
    {item : Option Schema} (hs : itemType? (s.map e.registry.resolve) = some item) {v : Value}
    (hv : v ∈ items) : v.isFaithful e store item = true := by
  rw [isFaithful, Bool.and_eq_true, hs] at h
  exact areFaithful_iff.1 h.2 v hv

end Value

/-! ## What comes back -/

/-- A field that a type fills in holds what is read of its default. -/
def Supplies (e : Encoder) (res : Resolutions) (o : Option ObjectType) (key : String) (w : Value) :
    Prop :=
  ∃ f path t, declared? o key = some f ∧ f.optional = false ∧ e.fill f path = .ok t ∧
    w = (e.reader res).decode t.reread (some f.schema)

/-- What comes back of a value at a place holds all of it. -/
inductive Restores (e : Encoder) (res : Resolutions) : Place → Value → Value → Prop
  | scalar (s : Option Schema) {v : Value} (h : v.hasText = true) : Restores e res (.value s) v v
  | list {s item : Option Schema} {items back : List Value}
      (hs : itemType? (s.map e.registry.resolve) = some item)
      (length : back.length = items.length)
      (each : ∀ v w, (v, w) ∈ items.zip back → Restores e res (.value item) v w) :
      Restores e res (.value s) (.list items) (.list back)
  | plain {s : Option Schema} {o : Option ObjectType} {fields back : Entries Value}
      (hs : plainType? (s.map e.registry.resolve) = some o)
      (h : Restores e res (.body o) (.object fields) (.object back)) :
      Restores e res (.value s) (.object fields) (.object back)
  /-- A case that is named, with an object or null for its payload. -/
  | explicit {s : Option Schema} {v : VariantType} {case : String} {schema : Schema}
      {payload : Value} {inner back : Entries Value}
      (hs : s.map e.registry.resolve = some (.variant v))
      (hc : explicitCase? v [(case, payload)] = some (case, schema))
      (hp : objectFields? payload = some inner)
      (h : Restores e res (.body (e.registry.objectOf? schema)) (.object inner) (.object back)) :
      Restores e res (.value s) (.object [(case, payload)]) (.object [(case, .object back)])
  | inline {s : Option Schema} {v : VariantType} {case : String} {schema : Schema}
      {fields back : Entries Value} (hs : s.map e.registry.resolve = some (.variant v))
      (hv : v.isInline = true) (hc : v.soleCase? = some (case, schema))
      (h : Restores e res (.body (e.registry.objectOf? schema)) (.object fields) (.object back)) :
      Restores e res (.value s) (.object fields) (.object back)
  /-- The payload of the only case comes back under the name of the case. -/
  | implied {s : Option Schema} {v : VariantType} {case : String} {schema : Schema}
      {fields back : Entries Value} (hs : s.map e.registry.resolve = some (.variant v))
      (hv : v.isInline = false) (hn : explicitCase? v fields = none)
      (hc : v.soleCase? = some (case, schema))
      (h : Restores e res (.body (e.registry.objectOf? schema)) (.object fields) (.object back)) :
      Restores e res (.value s) (.object fields) (.object [(case, .object back)])
  | body {o : Option ObjectType} {fields back : Entries Value} (distinct : back.Distinct)
      (kept : ∀ key ∈ fields.keys, key ∈ back.keys)
      (each : ∀ key v w, (key, v) ∈ fields → (key, w) ∈ back →
        Restores e res (.value ((declared? o key).map Field.schema)) v w)
      (filled : ∀ key w, (key, w) ∈ back → key ∉ fields.keys → Supplies e res o key w) :
      Restores e res (.body o) (.object fields) (.object back)

namespace Restores

variable {e : Encoder} {res : Resolutions} {v w : Value}

theorem ne_nil {o : Option ObjectType} {fields back : Entries Value}
    (h : Restores e res (.body o) (.object fields) (.object back)) (hne : fields ≠ []) :
    back ≠ [] := by
  obtain ⟨f, hf⟩ := List.exists_mem_of_ne_nil fields hne
  cases h with
  | body _ kept _ _ =>
    rintro rfl
    exact absurd (kept f.1 (Entries.mem_keys_of_mem hf)) (by simp)

/-- Something comes back as something. -/
theorem isEmptyContainer {s : Option Schema} (h : Restores e res (.value s) v w)
    (hv : v.isEmptyContainer = false) : w.isEmptyContainer = false := by
  have hfields : ∀ {o fields back}, Restores e res (.body o) (.object fields) (.object back) →
      (Value.object fields).isEmptyContainer = false →
        (Value.object back).isEmptyContainer = false := by
    intro o fields back h hv
    simpa [Value.isEmptyContainer] using h.ne_nil (by simpa [Value.isEmptyContainer] using hv)
  cases h with
  | scalar _ _ => exact hv
  | @list _ _ items back _ length _ =>
    have hne : items ≠ [] := by simpa [Value.isEmptyContainer] using hv
    simpa [Value.isEmptyContainer, ← List.length_eq_zero_iff, length] using hne
  | plain _ h => exact hfields h hv
  | explicit _ _ _ _ => rfl
  | inline _ _ _ h => exact hfields h hv
  | implied _ _ _ _ _ => rfl

end Restores

end TaggedMarkup
