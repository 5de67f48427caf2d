import Mathlib.Order.Monotone.Basic
import TaggedMarkup.Proofs.Cycle.Settled
import TaggedMarkup.Proofs.Encoding.Forms
/-!
# Chains of defaults are long enough

A field is filled in by encoding its default, and a chain of defaults may be as long as there are
fields in the registry. A longer chain reaches nothing new: allowing one more step either lets one
more field be filled in or changes nothing from there on. So a field is filled in exactly as its
default would be encoded if it were written out.
-/
namespace TaggedMarkup.Encoder

variable {e : Encoder} {fill : Field → Path → Except EncodeError Tree}

/-- What the encoder fills in, the other way to fill in fields gives as well. -/
def FilledBy (e : Encoder) (fill : Field → Path → Except EncodeError Tree) : Prop :=
  ∀ o name f path t, .object o ∈ e.registry.types → (name, f) ∈ o.fields →
    e.fill f path = .ok t → fill f path = .ok t

/-- The value is encoded with the other way to fill in fields as well. -/
def EncodedBy (e : Encoder) (fill : Field → Path → Except EncodeError Tree) (v : Value) : Prop :=
  ∀ schema verbatim path t, e.encode v schema verbatim path = .ok t →
    ({ e with fill := fill } : Encoder).encode v schema verbatim path = .ok t

section

variable {o : Option ObjectType} {path : Path} {skipCase : Bool} {fields : Entries Value}
  {entries : Entries Tree}

theorem EncodesEntry.filledBy {f : String × Value} {a : String × Tree} (hf : e.EncodedBy fill f.2)
    (h : EncodesEntry e o path f a) : EncodesEntry { e with fill := fill } o path f a := by
  cases h with
  | attr hk ht plain =>
    exact .attr (e := { e with fill := fill }) hk ht plain
  | text ht => exact .text (e := { e with fill := fill }) ht
  | child hk ht => exact .child hk (hf _ _ _ _ ht)

theorem Lays.filledBy (h : e.FilledBy fill) (ho : ∀ t, o = some t → .object t ∈ e.registry.types)
    (hfields : ∀ key v, (key, v) ∈ fields → e.EncodedBy fill v)
    (hl : e.Lays o path skipCase fields entries) :
    ({ e with fill := fill } : Encoder).Lays o path skipCase fields entries := by
  obtain ⟨own, filled, hown, hfilled, rfl⟩ := hl
  refine ⟨own, filled, forall₂_imp_of_mem hown fun f a hf _ hencodes => ?_,
    forall₂_imp_of_mem hfilled fun f a hf _ hfills => ⟨hfills.1, ?_⟩, rfl⟩
  · exact hencodes.filledBy (hfields f.1 f.2 (List.mem_of_mem_filter hf))
  · obtain ⟨⟨t, ht, hft⟩, -, -⟩ := mem_missingFields.1 hf
    exact h t f.1 f.2 _ _ (ho t ht) hft hfills.2

end

theorem encodeItems_of_encodedBy {items : List Value} (h : ∀ v ∈ items, e.EncodedBy fill v)
    {item : Option Schema} {path : Path} {i : Nat} {ts : List Tree}
    (hts : e.encodeItems items item path i = .ok ts) :
    ({ e with fill := fill } : Encoder).encodeItems items item path i = .ok ts := by
  induction items generalizing i ts with
  | nil =>
    rw [encodeItems] at hts ⊢
    exact hts
  | cons v rest ih =>
    rw [encodeItems] at hts ⊢
    obtain ⟨t, ht, hts⟩ := bind_eq_ok_iff.1 hts
    obtain ⟨more, hmore, hts⟩ := bind_eq_ok_iff.1 hts
    exact bind_eq_ok_iff.2 ⟨t, h v List.mem_cons_self _ _ _ _ ht, bind_eq_ok_iff.2
      ⟨more, ih (fun w hw => h w (List.mem_cons_of_mem _ hw)) hmore, hts⟩⟩

/-- What is encoded with one way to fill in fields is encoded with another that gives no less. -/
theorem encodedBy_of_keyed (hr : e.registry.WellKeyed) (h : e.FilledBy fill) {v : Value}
    (hk : v.Keyed) : e.EncodedBy fill v ∧
      ∀ fields, v = .object fields → ∀ key w, (key, w) ∈ fields → e.EncodedBy fill w := by
  induction hk with
  | null | bool _ | number _ | string _ | reference _ =>
    refine ⟨fun schema verbatim path t ht => ?_, by simp⟩
    rw [encode] at ht ⊢
    exact ht
  | @list items _ ih =>
    refine ⟨fun schema verbatim path t ht => ?_, by simp⟩
    obtain ⟨item, ts, hitem, hts, rfl⟩ := encode_list_eq_ok_iff.1 ht
    exact encode_list_eq_ok_iff.2
      ⟨item, ts, hitem, encodeItems_of_encodedBy (fun v hv => (ih v hv).1) hts, rfl⟩
  | @object fields distinct each ih =>
    have hfields : ∀ key w, (key, w) ∈ fields → e.EncodedBy fill w :=
      fun key w hm => (ih key w hm).1
    refine ⟨fun schema verbatim path t ht => ?_, fun fs heq => Value.object.inj heq ▸ hfields⟩
    rw [encode_object_eq_ok_iff hr] at ht
    refine (encode_object_eq_ok_iff (e := { e with fill := fill }) hr).2 ?_
    generalize hresolved : schema.map e.registry.resolve = resolved at ht
    cases ht with
    | @plain _ o entries hplain hl =>
      exact .plain (e := { e with fill := fill }) hplain (hl.filledBy h
        (fun t ht => mem_types_of_plainType? (hresolved ▸ hplain) ht) hfields)
    | blank hplain hnil => exact .blank hplain hnil
    | @explicit v case s payload inner entries hc hf hp hl =>
      refine .explicit (e := { e with fill := fill }) hc hf hp (hl.filledBy h
        (fun t ht => Registry.mem_types_of_objectOf? ht) fun key w hm => ?_)
      cases payload with
      | object fs =>
        obtain rfl := Option.some.inj hp
        exact (ih case _ (by simp [hf])).2 _ rfl key w hm
      | null =>
        obtain rfl := Option.some.inj hp
        cases hm
      | _ => cases hp
    | implied hne hc hs hl =>
      exact .implied (e := { e with fill := fill }) hne hc hs
        (hl.filledBy h (fun t ht => Registry.mem_types_of_objectOf? ht) hfields)

/-! ## The fields of a registry -/

section

variable {r : Registry} {c : Convention} {n : Nat}

def declaredFields : TypeDef → List Field
  | .object o => o.fields.map Prod.snd
  | .variant _ => []

/-- The fields of all object types. -/
def registryFields (r : Registry) : List Field := r.types.flatMap declaredFields

theorem mem_registryFields {f : Field} : f ∈ registryFields r ↔
    ∃ o name, .object o ∈ r.types ∧ (name, f) ∈ o.fields := by
  rw [registryFields, List.mem_flatMap]
  constructor
  · rintro ⟨t, ht, hf⟩
    cases t with
    | object o =>
      obtain ⟨⟨name, g⟩, hg, rfl⟩ := List.mem_map.1 hf
      exact ⟨o, name, ht, hg⟩
    | variant v => cases hf
  · rintro ⟨o, name, ho, hf⟩
    exact ⟨.object o, ho, List.mem_map.2 ⟨_, hf, rfl⟩⟩

theorem length_registryFields (r : Registry) : (registryFields r).length = fieldCount r := by
  have hfold : ∀ (types : List TypeDef) (n : Nat),
      types.foldl (fun n t => match t with
        | .object o => n + o.fields.length
        | .variant _ => n) n = n + (types.flatMap declaredFields).length := by
    intro types
    induction types with
    | nil => simp
    | cons t rest ih =>
      intro n
      rw [List.foldl_cons, ih, List.flatMap_cons, List.length_append]
      cases t with
      | object o => simp [declaredFields, Nat.add_assoc]
      | variant v => simp [declaredFields]
  exact ((hfold r.types 0).trans (Nat.zero_add _)).symm

/-! ## Longer chains -/

/-- The field can be filled in with a chain of defaults no longer than this. -/
def reaches (r : Registry) (c : Convention) (n : Nat) (f : Field) : Bool :=
  (fillField r c n f .root).toOption.isSome

/-- How many fields can be filled in. -/
def reachedCount (r : Registry) (c : Convention) (n : Nat) : Nat :=
  (registryFields r).countP (reaches r c n)

theorem reaches_iff {f : Field} : reaches r c n f = true ↔
    ∃ t, fillField r c n f .root = .ok t := by
  rw [reaches, Option.isSome_iff_exists]
  simp only [eq_ok_iff_toOption]

theorem fillField_mono (hr : r.WellKeyed) {m : Nat}
    (h : (chained r c n).FilledBy (fillField r c m)) :
    (chained r c (n + 1)).FilledBy (fillField r c (m + 1)) := by
  intro o name f path t ho hf ht
  have hkeyed : (r.synthesizeField f).Keyed := hr.synthesizeField (hr.objects o ho) hf
  exact (encodedBy_of_keyed (e := chained r c n) hr h hkeyed).1 _ _ _ _ ht

theorem filledBy_succ (hr : r.WellKeyed) (n : Nat) :
    (chained r c n).FilledBy (fillField r c (n + 1)) := by
  induction n with
  | zero =>
    intro o name f path t _ _ ht
    cases ht
  | succ n ih => exact fillField_mono hr ih

theorem reaches_of_filledBy {m : Nat} (h : (chained r c n).FilledBy (fillField r c m)) :
    ∀ f ∈ registryFields r, reaches r c n f = true → reaches r c m f = true := by
  intro f hf hn
  obtain ⟨o, name, ho, hf⟩ := mem_registryFields.1 hf
  obtain ⟨t, ht⟩ := reaches_iff.1 hn
  exact reaches_iff.2 ⟨t, h o name f .root t ho hf ht⟩

theorem reachedCount_monotone (hr : r.WellKeyed) : Monotone (reachedCount r c) :=
  monotone_nat_of_le_succ fun n =>
    List.countP_mono_left (reaches_of_filledBy (filledBy_succ hr n))

/-- Where a check holds whenever another does, and as often, the other holds whenever it does. -/
theorem of_countP_eq {α : Type} {p q : α → Bool} {l : List α}
    (h : ∀ x ∈ l, p x = true → q x = true) (heq : l.countP p = l.countP q) :
    ∀ x ∈ l, q x = true → p x = true := by
  have hfilter : (l.filter q).filter p = l.filter p := by
    rw [List.filter_filter]
    refine List.filter_congr fun x hx => ?_
    cases hp : p x with
    | false => rfl
    | true => simp [h x hx hp]
  rw [List.countP_eq_length_filter, List.countP_eq_length_filter, ← hfilter] at heq
  exact fun x hx hq => List.length_filter_eq_length_iff.1 heq x (List.mem_filter.2 ⟨hx, hq⟩)

/-- If a longer chain fills in no more fields, it fills in the same. -/
theorem filledBy_of_count_eq (hr : r.WellKeyed)
    (h : reachedCount r c n = reachedCount r c (n + 1)) :
    (chained r c (n + 1)).FilledBy (fillField r c n) := by
  have hmono := filledBy_succ (c := c) hr n
  have hback := of_countP_eq (reaches_of_filledBy hmono) h
  intro o name f path t ho hf ht
  have hroot := fill_at (fillsAlike_fillField r c (n + 1)) ht .root
  obtain ⟨u, hu⟩ := reaches_iff.1 (hback f (mem_registryFields.2 ⟨o, name, ho, hf⟩)
    (reaches_iff.2 ⟨t, hroot⟩))
  obtain rfl : u = t := Except.ok.inj ((hmono o name f .root u ho hf hu).symm.trans hroot)
  exact fill_at (fillsAlike_fillField r c n) hu path

/-- The longest chain that is allowed fills in all that a longer one would. -/
theorem filledBy_fieldCount (hr : r.WellKeyed) :
    (chained r c (fieldCount r + 1)).FilledBy (fillField r c (fieldCount r)) := by
  refine filledBy_of_count_eq hr (Eq.symm ?_)
  refine Nat.stabilises_of_monotone (reachedCount_monotone hr) (fun n => ?_) (fun n hn => ?_)
    (Nat.le_succ _)
  · rw [← length_registryFields]
    exact List.countP_le_length
  · have hback := fillField_mono hr (filledBy_of_count_eq hr hn)
    exact Nat.le_antisymm (reachedCount_monotone hr (Nat.le_succ _))
      (List.countP_mono_left (reaches_of_filledBy hback))

/-- A field is filled in as its default is encoded where it stands in a value. -/
theorem fill_eq_ok_iff (hr : r.WellKeyed) {o : ObjectType} (ho : .object o ∈ r.types)
    {name : String} {f : Field} (hf : (name, f) ∈ o.fields) {path : Path} {t : Tree} :
    (ofRegistry r c).fill f path = .ok t ↔
      (ofRegistry r c).encode (r.synthesizeField f) (some f.schema) f.verbatim path = .ok t :=
  ⟨filledBy_succ hr (fieldCount r) o name f path t ho hf,
    filledBy_fieldCount hr o name f path t ho hf⟩

end

end TaggedMarkup.Encoder
