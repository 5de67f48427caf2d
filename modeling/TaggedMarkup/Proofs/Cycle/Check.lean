import TaggedMarkup.Proofs.Cycle.Steady
/-!
# Deciding whether an encoder is steady

A closed encoder is steady if its defaults pass one round each. It is enough to try a default at one
path and with nothing looked up, since no text in its tree has the shape of a reference. The types
that may be read back as nothing are given by name and checked to be all of them.
-/
namespace TaggedMarkup

open Encoder Markup TaggedMarkup.Tree

namespace Encoder

/-- The value that is read back of a tree in which nothing is to be looked up. -/
def inertValue? (e : Encoder) (hint : Option Schema) : Except EncodeError Tree → Option Value
  | .ok t =>
    if t.reread.isInert e.convention then some ((e.reader ⟨[]⟩).decode t.reread hint) else none
  | .error _ => none

/-- What is filled in for a field is dropped. -/
def isIdle (e : Encoder) (f : Field) : Bool :=
  (e.fill f .root).toOption.any casesUnpadded &&
    (e.inertValue? (some f.schema) (e.fill f .root)).any Value.isEmptyContainer

/-- A value comes back from its tree. -/
def isSettled (e : Encoder) (s : Option Schema) (verbatim : Bool) (v : Value) : Bool :=
  (e.encode v s verbatim .root).toOption.any casesUnpadded &&
    (e.inertValue? s (e.encode v s verbatim .root)).any v.same

/-- What is filled in for a field is dropped or comes back. -/
def isReady (e : Encoder) (f : Field) : Bool :=
  (e.fill f .root).toOption.any casesUnpadded &&
    (e.inertValue? (some f.schema) (e.fill f .root)).any fun w =>
      w.isEmptyContainer || e.isSettled (some f.schema) f.verbatim w

/-- An empty object in a field is not dropped. -/
def isFilled (e : Encoder) (f : Field) : Bool :=
  (e.inertValue? (some f.schema) (e.encode (.object []) (some f.schema) f.verbatim .root)).any
    fun w => !w.isEmptyContainer

/-- The type that a schema is made of is one of those named. -/
def mentions (names : List String) (schema : Schema) : Bool :=
  schema.typeName?.any fun name => decide (name ∈ names)

def isSteadyField (e : Encoder) (names : List String) (f : Field) : Bool :=
  f.optional || (e.isReady f && (!mentions names f.schema || e.isIdle f))

/-- Decides whether an encoder is steady, given the types that may be read back as nothing. -/
def isSteady (e : Encoder) (names : List String) : Bool :=
  e.registry.types.all fun t => match t with
    | .object o =>
      o.tag.all (fun tag => decide (Unpadded tag)) &&
        (o.tag.isSome || o.fields.any fun f => !f.2.optional) &&
        (o.fields.all fun f => e.isSteadyField names f.2) &&
        ((o.fields.all fun f => !mentions names f.2.schema) || decide (o.name ∈ names))
    | .variant v =>
      (v.cases.all fun c => decide (Unpadded c.1)) &&
        (!v.isInline || decide (v.name ∈ names)) &&
        (v.soleCase?.bind fun c => e.registry.objectOf? c.2).all fun o =>
          o.fields.all fun f => f.2.optional || e.isIdle f.2 || e.isFilled f.2

end Encoder

variable {e : Encoder} {store : Store}

theorem inertValue?_eq_some {x : Except EncodeError Tree} {hint : Option Schema} {w : Value}
    (h : e.inertValue? hint x = some w) :
    ∃ t, x = .ok t ∧ ∀ res, (e.reader res).decode t.reread hint = w := by
  cases x with
  | error _ => cases h
  | ok t =>
    refine ⟨t, rfl, fun res => ?_⟩
    rw [inertValue?] at h
    split at h
    · next hinert =>
      rw [← Option.some.inj h]
      exact Decoder.decode_of_isInert (e.reader ⟨[]⟩) res t.reread hint hinert
    · cases h

/-- A check that holds of a tree at one path and of the value that is read back of it. -/
theorem exists_of_check {x : Path → Except EncodeError Tree} {hint : Option Schema} {p : Value → Bool}
    (hx : ∀ t q, x .root = .ok t → x q = .ok t)
    (h : ((x .root).toOption.any casesUnpadded && (e.inertValue? hint (x .root)).any p) = true) :
    ∃ t w, (∀ path, x path = .ok t) ∧ t.casesUnpadded = true ∧ p w = true ∧
      ∀ res, (e.reader res).decode t.reread hint = w := by
  obtain ⟨hcases, hvalue⟩ := Bool.and_eq_true_iff.1 h
  obtain ⟨w, hw, hp⟩ := (Option.any_eq_true _ _).1 hvalue
  obtain ⟨t, ht, hdecode⟩ := inertValue?_eq_some hw
  rw [ht] at hcases
  exact ⟨t, w, fun path => hx t path ht, by simpa [Except.toOption] using hcases, hp, hdecode⟩

section

variable (hf : e.FillsAlike)

include hf

theorem idle_of_isIdle {f : Field} (h : e.isIdle f = true) : Idle e f := by
  obtain ⟨t, w, hfill, hcases, hw, hdecode⟩ :=
    exists_of_check (fun t q ht => fill_at hf ht q) h
  exact ⟨t, hfill, hcases, fun res => by rw [hdecode, hw]⟩

theorem settled_of_isSettled {s : Option Schema} {verbatim : Bool} {v : Value}
    (h : e.isSettled s verbatim v = true) : Settled e store s verbatim v := by
  obtain ⟨t, w, hencode, hcases, hw, hdecode⟩ :=
    exists_of_check (fun t q ht => encode_at hf ht q) h
  exact ⟨t, hencode, fun res _ => by rw [hdecode, hw, hcases]⟩

theorem ready_of_isReady {f : Field} (h : e.isReady f = true) : Ready e store f := by
  obtain ⟨t, w, hfill, hcases, hw, hdecode⟩ :=
    exists_of_check (fun t q ht => fill_at hf ht q) h
  refine ⟨t, hfill, hcases, ?_⟩
  cases hempty : w.isEmptyContainer with
  | true => exact .inl fun res => by rw [hdecode, hempty]
  | false =>
    rw [hempty, Bool.false_or] at hw
    refine .inr fun res => ?_
    rw [hdecode]
    exact ⟨hempty, settled_of_isSettled hf hw⟩

theorem filled_of_isFilled {f : Field} (h : e.isFilled f = true) {path : Path} {t : Tree}
    {res : Resolutions} (ht : e.encode (.object []) (some f.schema) f.verbatim path = .ok t) :
    ((e.reader res).decode t.reread (some f.schema)).isEmptyContainer = false := by
  obtain ⟨w, hw, hfilled⟩ := (Option.any_eq_true _ _).1 h
  obtain ⟨u, hu, hdecode⟩ := inertValue?_eq_some hw
  obtain rfl : t = u := Except.ok.inj (ht.symm.trans (encode_at hf hu path))
  rw [hdecode]
  simpa using hfilled

end

section

variable {r : Registry} {schema : Schema}

theorem typeName?_of_resolve_object {o : ObjectType} (h : r.resolve schema = .object o) :
    schema.typeName? = some o.name := by
  rw [Registry.eq_named_of_resolve_object h]
  rfl

theorem typeName?_of_resolve_variant {v : VariantType} (h : r.resolve schema = .variant v) :
    schema.typeName? = some v.name := by
  rw [Registry.eq_named_of_resolve_variant h]
  rfl

theorem typeName?_of_resolve_list {item : Schema} (h : r.resolve schema = .list item) :
    schema.typeName? = item.typeName? := by
  cases schema with
  | named name =>
    rw [Registry.resolve] at h
    split at h <;> cases h
  | list i =>
    cases h
    rfl
  | primitive kind => cases h

end

section

variable {names : List String} (h : e.isSteady names = true)

include h

theorem isSteady_object {o : ObjectType} (ho : .object o ∈ e.registry.types) :
    (∀ tag, o.tag = some tag → Unpadded tag) ∧
      (o.tag = none → ∃ f ∈ o.fields, f.2.optional = false) ∧
      (∀ f ∈ o.fields, e.isSteadyField names f.2 = true) ∧
      ∀ f ∈ o.fields, mentions names f.2.schema = true → o.name ∈ names := by
  have hcheck := List.all_eq_true.1 h _ ho
  simp only [Bool.and_eq_true, Bool.or_eq_true] at hcheck
  obtain ⟨⟨⟨htag, hparted⟩, hfields⟩, hnames⟩ := hcheck
  refine ⟨fun tag ht => by simpa [ht] using htag, fun ht => ?_, List.all_eq_true.1 hfields,
    fun f hf hm => ?_⟩
  · simpa [ht] using hparted
  · rcases hnames with hnone | hname
    · have hnot := List.all_eq_true.1 hnone f hf
      rw [hm] at hnot
      cases hnot
    · simpa using hname

theorem isSteady_variant {v : VariantType} (hv : .variant v ∈ e.registry.types) :
    (∀ case schema, v.case? case = some schema → Unpadded case) ∧
      (v.isInline = true → v.name ∈ names) ∧
      ∀ case schema o, v.soleCase? = some (case, schema) → e.registry.objectOf? schema = some o →
        ∀ f ∈ o.fields, f.2.optional = false → e.isIdle f.2 = true ∨ e.isFilled f.2 = true := by
  have hcheck := List.all_eq_true.1 h _ hv
  simp only [Bool.and_eq_true] at hcheck
  obtain ⟨⟨hcases, hinline⟩, hbare⟩ := hcheck
  refine ⟨fun case schema hc => ?_, fun hi => by simpa [hi] using hinline,
    fun case schema o hsole ho f hf hoptional => ?_⟩
  · simpa using List.all_eq_true.1 hcases _ (Entries.mem_of_get?_eq_some hc)
  · have hall : (o.fields.all fun f => f.2.optional || e.isIdle f.2 || e.isFilled f.2) = true := by
      simpa [hsole, ho] using hbare
    simpa [hoptional] using List.all_eq_true.1 hall f hf

/-- The types that may be read back as nothing are among those named. -/
theorem mentions_of_droppable {schema : Schema} (hd : Droppable e.registry schema) :
    mentions names schema = true := by
  induction hd with
  | @inline s v hs hv =>
    rw [mentions, typeName?_of_resolve_variant hs]
    simpa using (isSteady_variant h (Registry.mem_types_of_resolve_variant hs)).2.1 hv
  | list hs _ ih => rwa [mentions, typeName?_of_resolve_list hs]
  | @object s o f hs hf _ ih =>
    rw [mentions, typeName?_of_resolve_object hs]
    simpa using (isSteady_object h (Registry.mem_types_of_resolve hs)).2.2.2 f hf ih

theorem steady_of_isSteady (hr : e.registry.WellKeyed) (hf : e.FillsAlike) : Steady e store where
  keyed := hr
  tag o tag ho ht := (isSteady_object h ho).1 tag ht
  case v case schema hv hc := (isSteady_variant h hv).1 case schema hc
  parted o ho ht := (isSteady_object h ho).2.1 ht
  ready o ho f hm hoptional := by
    have hfield := (isSteady_object h ho).2.2.1 f hm
    rw [isSteadyField, hoptional, Bool.false_or, Bool.and_eq_true] at hfield
    exact ready_of_isReady hf hfield.1
  droppable o ho f hm hoptional hd := by
    have hfield := (isSteady_object h ho).2.2.1 f hm
    rw [isSteadyField, hoptional, Bool.false_or, Bool.and_eq_true, mentions_of_droppable h hd]
      at hfield
    exact idle_of_isIdle hf hfield.2
  bare v case schema o hv hsole ho f hm hoptional := by
    rcases (isSteady_variant h hv).2.2 case schema o hsole ho f hm hoptional with hidle | hfilled
    · exact .inl (idle_of_isIdle hf hidle)
    · exact .inr fun path t res => filled_of_isFilled hf hfilled

end

end TaggedMarkup
