import TaggedMarkup.Proofs.Cycle.Convergence
/-!
# Legible values

In a legible value every number is spelt by its text, every reference is found and no character data
is empty. What is written of it shows of which kind it was. Decoding makes no other values, and the
defaults of analytics definitions are legible as well. They are tidy at every place, since no
character data is in them.
-/
namespace TaggedMarkup

open Encoder Markup TaggedMarkup.Tree

namespace Value

section

variable (found : Reference → Bool)

mutual

/-- Numbers and references are read from their texts again, and character data is there. -/
def isLegible : Value → Bool
  | .number n => (Number.canonical? n.text).isSome
  | .reference q => found q
  | .list items => areLegible items
  | .object fields => haveLegible fields
  | _ => true

def areLegible : List Value → Bool
  | [] => true
  | v :: rest => isLegible v && areLegible rest

def haveLegible : List (String × Value) → Bool
  | [] => true
  | (key, v) :: rest =>
    (decide (key ≠ Marker.text) || decide (v.asString? ≠ some "")) && isLegible v &&
      haveLegible rest

end

end

variable {found : Reference → Bool}

theorem isLegible_list_iff {items : List Value} :
    (Value.list items).isLegible found = true ↔ ∀ v ∈ items, v.isLegible found = true := by
  rw [isLegible]
  induction items with
  | nil => simp [areLegible]
  | cons v rest ih => simp [areLegible, ih]

theorem isLegible_object_iff {fields : Entries Value} :
    (Value.object fields).isLegible found = true ↔ ∀ key v, (key, v) ∈ fields →
      (key = Marker.text → v.asString? ≠ some "") ∧ v.isLegible found = true := by
  rw [isLegible]
  induction fields with
  | nil => simp [haveLegible]
  | cons f rest ih =>
    obtain ⟨key, v⟩ := f
    rw [Entries.forall_mem_cons, ← ih, haveLegible]
    simp only [Bool.and_eq_true, Bool.or_eq_true, decide_eq_true_eq, imp_iff_not_or, ne_eq]

mutual

/-- More references are found. -/
theorem isLegible_mono {found' : Reference → Bool} (h : ∀ q, found q = true → found' q = true)
    (v : Value) : v.isLegible found = true → v.isLegible found' = true := by
  match v with
  | .reference q =>
    rw [isLegible, isLegible]
    exact h q
  | .list items =>
    rw [isLegible, isLegible]
    exact areLegible_mono h items
  | .object fields =>
    rw [isLegible, isLegible]
    exact haveLegible_mono h fields
  | .number _ => exact id
  | .null | .bool _ | .string _ => exact fun _ => by rw [isLegible] <;> simp

theorem areLegible_mono {found' : Reference → Bool} (h : ∀ q, found q = true → found' q = true)
    (items : List Value) : areLegible found items = true → areLegible found' items = true := by
  match items with
  | [] => exact id
  | v :: rest =>
    rw [areLegible, areLegible, Bool.and_eq_true, Bool.and_eq_true]
    exact And.imp (isLegible_mono h v) (areLegible_mono h rest)

theorem haveLegible_mono {found' : Reference → Bool} (h : ∀ q, found q = true → found' q = true)
    (fields : List (String × Value)) :
    haveLegible found fields = true → haveLegible found' fields = true := by
  match fields with
  | [] => exact id
  | (_, v) :: rest =>
    rw [haveLegible, haveLegible, Bool.and_eq_true, Bool.and_eq_true, Bool.and_eq_true,
      Bool.and_eq_true]
    exact And.imp (And.imp_right (isLegible_mono h v)) (haveLegible_mono h rest)

end

end Value

/-- The text that a reference is written as leads to one in the store. -/
def Convention.locates (c : Convention) (store : Store) (q : Reference) : Bool :=
  (c.spelled? store (c.render q)).isSome

/-- The text of a legible scalar is empty for the empty string only. -/
theorem Encoder.wireText?_ne_empty {e : Encoder} {store : Store} {v : Value}
    (h : v.isLegible (e.convention.locates store) = true) (hv : v.asString? ≠ some "") :
    e.wireText? v ≠ some "" := by
  intro hempty
  cases v with
  | bool b => cases b <;> exact absurd (Option.some.inj hempty) (by decide)
  | number n => exact n.text_ne_empty (Option.some.inj hempty)
  | string text => exact hv hempty
  | reference q =>
    rw [Value.isLegible, Convention.locates] at h
    obtain ⟨found, hfound⟩ := Option.isSome_iff_exists.1 h
    exact (Convention.spelled?_eq_some hfound).2.2 (Option.some.inj hempty)
  | null | list _ | object _ => cases hempty

/-! ## What is decoded -/

namespace Decoder

variable {d : Decoder} {store : Store} {t : Tree}

theorem isLegible_natural {found : Reference → Bool} (text : String) :
    (natural text).isLegible found = true := by
  unfold natural
  split
  · next n hn =>
    rw [Value.isLegible, Number.text_of_canonical? hn, hn]
    rfl
  · rfl
  · rfl

theorem isLegible_bool {found : Reference → Bool} (text : String) :
    (bool text).isLegible found = true := by
  unfold bool
  cases canonicalBool? text <;> rfl

theorem isLegible_scalar (hs : d.Sound store) (text : String) (hint : Option Schema) :
    (d.scalar text hint).isLegible (d.convention.locates store) = true := by
  unfold scalar
  split
  · next q hq =>
    have hfound := hs.reference? hq
    rw [Value.isLegible, Convention.locates, (Convention.spelled?_eq_some hfound).1, hfound]
    rfl
  · unfold literal
    split
    · rfl
    · unfold number
      cases hn : Number.canonical? text with
      | none => rfl
      | some n =>
        change (Value.number n).isLegible _ = true
        rw [Value.isLegible, Number.text_of_canonical? hn, hn]
        rfl
    · exact isLegible_bool text
    · split
      · rfl
      · exact isLegible_natural text
    · split
      · rfl
      · exact isLegible_natural text
    · split
      · rfl
      · exact isLegible_natural text
    · exact isLegible_natural text

/-- A text that is decoded as a string is that string. -/
theorem eq_of_asString?_scalar {text other : String} {hint : Option Schema}
    (h : (d.scalar text hint).asString? = some other) : text = other := by
  have hnatural : (natural text).asString? = some other → text = other := by
    unfold natural
    split <;> simp [Value.asString?]
  revert h
  unfold scalar
  split
  · simp [Value.asString?]
  · unfold literal
    split
    · simp [Value.asString?]
    · unfold number
      cases Number.canonical? text <;> simp [Value.asString?]
    · unfold bool
      cases canonicalBool? text <;> simp [Value.asString?]
    · split
      · simp [Value.asString?]
      · exact hnatural
    · split
      · simp [Value.asString?]
      · exact hnatural
    · split
      · simp [Value.asString?]
      · exact hnatural
    · exact hnatural

/-- Decoding makes legible values. -/
theorem isLegible_decode (hs : d.Sound store) (h : t.Regular) (hint : Option Schema) :
    (d.decode t hint).isLegible (d.convention.locates store) = true := by
  refine decode_induction
    (P := fun v => v.isLegible (d.convention.locates store) = true)
    (F := fun key v => (key = Marker.text → v.asString? ≠ some "") ∧
      v.isLegible (d.convention.locates store) = true)
    (isLegible_scalar hs) (fun _ => rfl) isLegible_bool
    (fun _ heach => Value.isLegible_list_iff.2 heach)
    (fun _ _ heach => Value.isLegible_object_iff.2 heach)
    (fun key name text hname _ => ⟨?_, rfl⟩) (fun text hint hne => ⟨fun _ hempty => ?_, ?_⟩)
    (fun key v _ hkey hv => ⟨fun htext => absurd htext hkey, hv⟩)
    (fun _ _ hfields => ⟨fun _ hempty => (nomatch hempty), hfields⟩) h hint
  · rintro rfl
    rw [show Marker.attributeName? Marker.text = none by decide] at hname
    cases hname
  · exact hne (eq_of_asString?_scalar hempty)
  · exact isLegible_scalar hs text hint

theorem isLegible_decodeDocument (hs : d.Sound store) (h : t.Regular) (schema : Schema) :
    (d.decodeDocument t schema).isLegible (d.convention.locates store) = true := by
  have hdecode := isLegible_decode hs h (some schema)
  unfold decodeDocument
  split
  · next hv => rwa [hv] at hdecode
  · rfl
  · next hobject hempty =>
    refine Value.isLegible_object_iff.2 fun key v hm => ?_
    obtain ⟨rfl, rfl⟩ := Prod.mk.inj (List.mem_singleton.1 hm)
    refine ⟨fun _ hstring => ?_, hdecode⟩
    generalize d.decode t (some schema) = v at hempty hstring
    cases v with
    | string text => exact hempty (congrArg Value.string (Option.some.inj hstring))
    | _ => cases hstring

end Decoder

/-! ## Defaults -/

namespace Value

mutual

/-- No object has character data. -/
def isWordless : Value → Bool
  | .list items => areWordless items
  | .object fields => haveWordless fields
  | _ => true

def areWordless : List Value → Bool
  | [] => true
  | v :: rest => isWordless v && areWordless rest

def haveWordless : List (String × Value) → Bool
  | [] => true
  | (key, v) :: rest => decide (key ≠ Marker.text) && isWordless v && haveWordless rest

end

theorem isWordless_list_iff {items : List Value} :
    (Value.list items).isWordless = true ↔ ∀ v ∈ items, v.isWordless = true := by
  rw [isWordless]
  induction items with
  | nil => simp [areWordless]
  | cons v rest ih => simp [areWordless, ih]

theorem isWordless_object_iff {fields : Entries Value} :
    (Value.object fields).isWordless = true ↔ ∀ key v, (key, v) ∈ fields →
      key ≠ Marker.text ∧ v.isWordless = true := by
  rw [isWordless]
  induction fields with
  | nil => simp [haveWordless]
  | cons f rest ih =>
    obtain ⟨key, v⟩ := f
    rw [Entries.forall_mem_cons, ← ih, haveWordless]
    simp only [Bool.and_eq_true, decide_eq_true_eq]

theorem isText_of_isWordless {v : Value} (h : v.isWordless = true) : v.isText = false := by
  cases v with
  | object fields =>
    cases fields with
    | nil => rfl
    | cons f rest =>
      exact isText_of_mem List.mem_cons_self (isWordless_object_iff.1 h f.1 f.2 List.mem_cons_self).1
  | _ => rfl

end Value

/-- A value without references and character data is tidy at every place. -/
theorem Tidy.of_isWordless {e : Encoder} {store : Store} {v : Value} (hk : v.Keyed) :
    v.isLegible (fun _ => false) = true → v.isWordless = true →
      ∀ s, Tidy e store true (.value s) v := by
  induction hk with
  | null => exact fun _ _ s => .null s rfl
  | bool b => exact fun _ _ s => .bool s b
  | number n => exact fun _ _ s => .number s n
  | string text => exact fun _ _ s => .string s text
  | reference q =>
    intro hlegible
    rw [Value.isLegible] at hlegible
    cases hlegible
  | list _ ih =>
    exact fun hlegible hwordless s => .list (by simp) fun item _ v hv =>
      ih v hv (Value.isLegible_list_iff.1 hlegible v hv) (Value.isWordless_list_iff.1 hwordless v hv)
        item
  | @object fields hd _ ih =>
    intro hlegible hwordless
    have heach := Value.isWordless_object_iff.1 hwordless
    have htidy : ∀ key v, (key, v) ∈ fields → ∀ s, Tidy e store true (.value s) v := fun key v hm =>
      ih key v hm (Value.isLegible_object_iff.1 hlegible key v hm).2 (heach key v hm).2
    refine of_loose (fun _ o _ v hm => Value.isText_of_isWordless (heach _ v hm).2) (fun o => ?_)
      fun case payload inner schema hm hp => body_of_forall (htidy case payload hm) hp schema
    exact .body hd (fun v hm => absurd rfl (heach _ v hm).1) (by simp)
      fun key v hm _ => htidy key v hm _

/-- Defaults are legible wherever they stand, and no character data is in them. -/
def Registry.isLegible (r : Registry) : Bool :=
  r.types.all fun t => match t with
    | .object o => o.fields.all fun f =>
      (r.synthesizeField f.2).isLegible (fun _ => false) && (r.synthesizeField f.2).isWordless
    | .variant _ => true

section

variable {r : Registry} (h : r.isLegible = true) {o : ObjectType} (ho : .object o ∈ r.types)
  {name : String} {f : Field} (hf : (name, f) ∈ o.fields)

include h ho hf

theorem Registry.isLegible_synthesizeField_none :
    (r.synthesizeField f).isLegible (fun _ => false) = true ∧ (r.synthesizeField f).isWordless = true :=
  Bool.and_eq_true_iff.1 (List.all_eq_true.1 (List.all_eq_true.1 h _ ho) _ hf)

theorem Registry.isLegible_synthesizeField (found : Reference → Bool) :
    (r.synthesizeField f).isLegible found = true :=
  Value.isLegible_mono (by simp) _ (isLegible_synthesizeField_none h ho hf).1

end

theorem Analytics.registry_isLegible : registry.isLegible = true := by decide +kernel

end TaggedMarkup
