import TaggedMarkup.Proofs.Cycle.Objects
/-!
# Values that settle in one round

An encoder is steady if its defaults settle where they are filled in, and if a field that a round
may empty is empty again once it is filled in. Under a steady encoder every tidy value lasts: what
is read back of it is settled, or dropped.
-/
namespace TaggedMarkup

open Encoder Markup TaggedMarkup.Tree

/-- What is read back is settled, or it is dropped for a reason. -/
def Lasts (e : Encoder) (store : Store) (s : Option Schema) (verbatim : Bool) (w : Value)
    (idle : Prop) : Prop :=
  w.isEmptyContainer = false ∧ Settled e store s verbatim w ∨ w.isEmptyContainer = true ∧ idle

/-- A field that settles where it is filled in: it is always dropped, or always read back. -/
def Ready (e : Encoder) (store : Store) (f : Field) : Prop :=
  ∃ t, (∀ path, e.fill f path = .ok t) ∧ t.casesUnpadded = true ∧
    ((∀ res, ((e.reader res).decode t.reread (some f.schema)).isEmptyContainer = true) ∨
      ∀ res, ((e.reader res).decode t.reread (some f.schema)).isEmptyContainer = false ∧
        Settled e store (some f.schema) f.verbatim ((e.reader res).decode t.reread (some f.schema)))

/-- A schema under which something may be read back as nothing. -/
inductive Droppable (r : Registry) : Schema → Prop
  | inline {s : Schema} {v : VariantType} (hs : r.resolve s = .variant v)
      (hv : v.isInline = true) : Droppable r s
  | list {s item : Schema} (hs : r.resolve s = .list item) (hi : Droppable r item) : Droppable r s
  | object {s : Schema} {o : ObjectType} {f : String × Field} (hs : r.resolve s = .object o)
      (hf : f ∈ o.fields) (hd : Droppable r f.2.schema) : Droppable r s

variable {e : Encoder} {store : Store} {res : Resolutions} {s : Option Schema} {verbatim : Bool}
  {o : Option ObjectType} {path : Path} {skipCase : Bool} {fields : Entries Value}
  {entries : Entries Tree}

theorem Lasts.imp {w : Value} {p q : Prop} (h : Lasts e store s verbatim w p) (hpq : p → q) :
    Lasts e store s verbatim w q :=
  Or.imp id (fun hw => ⟨hw.1, hpq hw.2⟩) h

/-! ## Fields -/

/-- Fields that last, or are dropped for a reason of their own. -/
structure Carries (e : Encoder) (store : Store) (o : Option ObjectType) (idle : String → Prop)
    (fields : Entries Value) : Prop where
  distinct : fields.Distinct
  data : ∀ v, (Marker.text, v) ∈ fields → e.wireText? v ≠ some ""
  each : ∀ key v path t res, (key, v) ∈ fields → IsFieldName key →
    e.encode v ((declared? o key).map Field.schema) ((declared? o key).any Field.verbatim) path =
      .ok t → (e.reader res).Knows store t.reread →
    Lasts e store ((declared? o key).map Field.schema) ((declared? o key).any Field.verbatim)
      ((e.reader res).decode t.reread ((declared? o key).map Field.schema)) (idle key)

/-- A dropped field is as empty when it is filled in. -/
def IdleAt (e : Encoder) (o : Option ObjectType) (key : String) : Prop :=
  ∀ f, declared? o key = some f → f.optional = false → Idle e f

section

variable (ho : ∀ t, o = some t → t.WellKeyed) {idle : String → Prop}
  (h : Carries e store o idle fields) (hl : e.Lays o path skipCase fields entries)
  (hknows : KnowsEntries e store res entries)

theorem mem_keys_readBack_child (hd : entries.Distinct) {key : String} (hk : IsFieldName key)
    {t : Tree} (ht : (key, t) ∈ entries)
    (hfilled : ((e.reader res).decode t.reread
      ((declared? o key).map Field.schema)).isEmptyContainer = false) :
    key ∈ ((e.reader res).readBack o entries).keys := by
  have hget : Entries.get? ((e.reader res).readBack o entries) key = _ :=
    get?_readBack_child hd hk ht
  rw [hfilled, if_neg Bool.false_ne_true] at hget
  exact Entries.mem_keys_of_mem (Entries.mem_of_get?_eq_some hget)

include ho h hl hknows in
/-- A field is read back, or it is a child that is dropped. -/
theorem Carries.mem_keys_or_idle {key : String} {v : Value}
    (hv : (key, v) ∈ ownFields skipCase fields) :
    key ∈ ((e.reader res).readBack o entries).keys ∨ IsFieldName key ∧ idle key := by
  have hdistinct := hl.distinct ho h.distinct
  have hmem : ∀ {w}, Entries.get? ((e.reader res).readBack o entries) key = some w →
      key ∈ ((e.reader res).readBack o entries).keys := fun hw =>
    Entries.mem_keys_of_mem (Entries.mem_of_get?_eq_some hw)
  have hmember : (key, v) ∈ fields := List.mem_of_mem_filter hv
  obtain ⟨a, ha, hrel⟩ := hl.exists_entry hv
  cases hrel with
  | attr hk _ _ =>
    exact .inl (hmem (get?_readBack_attribute hdistinct (by simp [Marker.isAttribute, hk]) ha))
  | text ht =>
    have hread := readText_of_lays ho h.distinct hl hv ht
    have hne : readText entries ≠ "" := by
      rw [hread]
      rintro rfl
      exact h.data v hmember ht
    exact .inl (hmem (by rw [get?_readBack_text hdistinct ho, if_neg hne]))
  | child hk ht =>
    rcases h.each _ _ _ _ res hmember hk ht (hknows.child hdistinct hk ha) with ⟨hfilled, -⟩ | ⟨-, hi⟩
    · exact .inl (mem_keys_readBack_child hdistinct hk ha hfilled)
    · exact .inr ⟨hk, hi⟩

/-- What a missing field is filled in with is settled, or dropped with its field idle. -/
theorem idle_or_settled_of_fill
    (hready : ∀ t, o = some t → ∀ f ∈ t.fields, f.2.optional = false → Ready e store f.2)
    {present : List String} {f : String × Field} (hf : f ∈ missingFields o present) {t : Tree}
    (ht : e.fill f.2 path = .ok t) :
    Idle e f.2 ∧ ((e.reader res).decode t.reread (some f.2.schema)).isEmptyContainer = true ∨
      ((e.reader res).decode t.reread (some f.2.schema)).isEmptyContainer = false ∧
        Settled e store (some f.2.schema) f.2.verbatim
          ((e.reader res).decode t.reread (some f.2.schema)) := by
  obtain ⟨⟨u, rfl, hmem⟩, -, hoptional⟩ := mem_missingFields.1 hf
  obtain ⟨t', hfill, hcases, hempty | hsettled⟩ := hready u rfl f hmem hoptional
  · cases (hfill path).symm.trans ht
    exact .inl ⟨⟨t, hfill, hcases, hempty⟩, hempty res⟩
  · cases (hfill path).symm.trans ht
    exact .inr (hsettled res)

include ho h hl hknows in
/-- A child that is read back is settled at its field. -/
theorem Carries.settled_child
    (hready : ∀ t, o = some t → ∀ f ∈ t.fields, f.2.optional = false → Ready e store f.2)
    {key : String} (hk : IsFieldName key) {t : Tree} (ht : (key, t) ∈ entries)
    (hfilled : ((e.reader res).decode t.reread
      ((declared? o key).map Field.schema)).isEmptyContainer = false) :
    Settled e store ((declared? o key).map Field.schema) ((declared? o key).any Field.verbatim)
      ((e.reader res).decode t.reread ((declared? o key).map Field.schema)) := by
  have hdistinct := hl.distinct ho h.distinct
  rcases hl.cases_child hk ht with ⟨v, hm, hencode⟩ | ⟨f, hm, hfill⟩
  · rcases h.each _ _ _ _ res (List.mem_of_mem_filter hm) hk hencode
      (hknows.child hdistinct hk ht) with ⟨-, hsettled⟩ | ⟨hempty, -⟩
    · exact hsettled
    · rw [hempty] at hfilled
      cases hfilled
  · rw [declared?_of_mem_missingFields ho hm] at hfilled ⊢
    rcases idle_or_settled_of_fill hready hm hfill with ⟨-, hempty⟩ | ⟨-, hsettled⟩
    · rw [Option.map_some, hempty] at hfilled
      cases hfilled
    · exact hsettled

include ho h hl hknows in
/-- A field that is not read back is idle: it has been dropped, or its default has. -/
theorem Carries.idle_of_missing (hidle : ∀ key, idle key → IdleAt e o key)
    (hskip : skipCase = true → declared? o Marker.untypedCase = none)
    (hready : ∀ t, o = some t → ∀ f ∈ t.fields, f.2.optional = false → Ready e store f.2)
    {f : String × Field}
    (hf : f ∈ missingFields o ((e.reader res).readBack o entries).keys) : Idle e f.2 := by
  have hdistinct := hl.distinct ho h.distinct
  have hdeclared := declared?_of_mem_missingFields ho hf
  obtain ⟨⟨u, hu, hmem⟩, hnew, hoptional⟩ := mem_missingFields.1 hf
  by_cases hpresent : f.1 ∈ fields.keys
  · obtain ⟨v, hv⟩ := Entries.exists_of_mem_keys hpresent
    have hown : (f.1, v) ∈ ownFields skipCase fields := by
      refine List.mem_filter.2 ⟨hv, ?_⟩
      by_contra hcase
      have hcase : skipCase = true ∧ f.1 = Marker.untypedCase := by simpa using hcase
      rw [hcase.2, hskip hcase.1] at hdeclared
      cases hdeclared
    rcases h.mem_keys_or_idle ho hl hknows hown with hkey | ⟨-, hi⟩
    · exact absurd hkey hnew
    · exact hidle _ hi f.2 hdeclared hoptional
  · have hf' := mem_missingFields.2 ⟨⟨u, hu, hmem⟩, hpresent, hoptional⟩
    obtain ⟨own, filled, -, hfilled, rfl⟩ := hl
    obtain ⟨⟨key, t⟩, ha, hkey, hfill⟩ := mem_of_forall₂_left hfilled hf'
    obtain rfl : key = f.1 := hkey
    rcases idle_or_settled_of_fill hready hf' hfill with ⟨hi, -⟩ | ⟨hne, -⟩
    · exact hi
    · have hkey : f.1 ∈ ((e.reader res).readBack o (own ++ filled)).keys :=
        mem_keys_readBack_child hdistinct
          (isFieldName_of_mem_missingFields ho (Entries.mem_keys_of_mem hf'))
          (List.mem_append_right _ ha) (by rw [hdeclared]; exact hne)
      exact absurd hkey hnew

include ho h hl hknows in
/-- What is read back of the fields of an object is settled. -/
theorem Carries.fieldsSettled (hidle : ∀ key, idle key → IdleAt e o key)
    (hskip : skipCase = true → declared? o Marker.untypedCase = none)
    (hready : ∀ t, o = some t → ∀ f ∈ t.fields, f.2.optional = false → Ready e store f.2) :
    FieldsSettled e store o false ((e.reader res).readBack o entries) := by
  refine ⟨Decoder.distinct_readBack (hl.distinct ho h.distinct), fun f hf => ?_, fun f hf =>
    h.idle_of_missing ho hl hknows hidle hskip hready hf⟩
  rw [ownFields_false] at hf
  obtain ⟨key, w⟩ := f
  cases readsBack_of_mem ho h.distinct hl hf with
  | attr hk _ _ plain => exact .attr hk plain
  | text hv ht hne =>
    have hread := readText_of_lays ho h.distinct hl hv ht
    have htext := hknows.text (by rw [hread]; exact hne)
    rw [hread] at htext
    rw [scalar_eq_settle htext]
    exact .text hne
  | child hk ht hfilled =>
    exact .child hk (h.settled_child ho hl hknows hready hk ht hfilled) hfilled

end

/-- Where an object collapses, all of its fields are dropped. -/
theorem Carries.idle_of_collapsed {idle : String → Prop} (h : Carries e store o idle fields)
    (hl : e.Lays o path false fields entries)
    (hall : (entries.all fun t => t.2.isPlaceholder) = true) {key : String}
    (hkey : key ∈ fields.keys) : IsFieldName key ∧ idle key := by
  obtain ⟨v, hv⟩ := Entries.exists_of_mem_keys hkey
  obtain ⟨a, ha, hrel⟩ := hl.exists_entry (by rwa [ownFields_false])
  have hplaceholder := List.all_eq_true.1 hall a ha
  cases hrel with
  | attr _ _ _ => cases hplaceholder
  | text _ => cases hplaceholder
  | @child _ _ t hname hencode =>
    have hempty : (e.reader ⟨[]⟩).Knows store t.reread ∧ ∀ hint,
        ((e.reader ⟨[]⟩).decode t.reread hint).isEmptyContainer = true := by
      rcases eq_of_isPlaceholder hplaceholder with rfl | rfl
      · refine ⟨fun p hp => ?_, fun hint => ?_⟩
        · cases hp
        · rw [Decoder.decode_reread_null]
          rfl
      · refine ⟨fun p hp => ?_, fun hint => ?_⟩
        · cases hp
        · rw [Decoder.decode_reread_array (by simp)]
          rfl
    rcases h.each _ _ _ _ ⟨[]⟩ hv hname hencode hempty.1 with ⟨hfilled, -⟩ | ⟨-, hi⟩
    · rw [hempty.2] at hfilled
      cases hfilled
    · exact ⟨hname, hi⟩

theorem FieldsSettled.skip (h : FieldsSettled e store o false fields) (skipCase : Bool) :
    FieldsSettled e store o skipCase fields := by
  refine ⟨h.distinct, fun f hf => h.each f ?_, h.missing⟩
  rw [ownFields_false]
  exact List.mem_of_mem_filter hf

theorem FieldsSettled.untyped (h : FieldsSettled e store o false fields)
    (hnew : Marker.untypedCase ∉ fields.keys) (case : String) :
    FieldsSettled e store o true ((Marker.untypedCase, .string case) :: fields) := by
  refine ⟨Entries.distinct_cons.2 ⟨hnew, h.distinct⟩, fun f hf => h.each f ?_, fun f hf => ?_⟩
  · rw [ownFields_false]
    rw [ownFields, List.filter_cons_of_neg (by simp)] at hf
    exact List.mem_of_mem_filter hf
  · obtain ⟨ht, hf, hoptional⟩ := mem_missingFields.1 hf
    exact h.missing f (mem_missingFields.2 ⟨ht, fun hk => hf (List.mem_cons_of_mem _ hk), hoptional⟩)

/-- A case that has been read back is kept again. -/
theorem untypedCase?_untyped {case : String} (h : untypedCase? fields o = some case)
    (read : String) (back : Entries Value) :
    untypedCase? ((Marker.untypedCase, .string read) :: back) o = some read := by
  unfold untypedCase? at h ⊢
  split at h
  · cases h
  · next hnone =>
    rw [if_neg hnone, Entries.get?_cons, if_pos rfl]
    rfl

/-! ## Objects -/

/-- A field whose schema may be read back as nothing. -/
def DroppableAt (e : Encoder) (o : Option ObjectType) (key : String) : Prop :=
  ∃ f, declared? o key = some f ∧ Droppable e.registry f.schema

/-- What an encoder must have for every decoded value to settle in one round. -/
structure Steady (e : Encoder) (store : Store) : Prop where
  keyed : e.registry.WellKeyed
  tag : ∀ o tag, .object o ∈ e.registry.types → o.tag = some tag → Unpadded tag
  case : ∀ v case schema, .variant v ∈ e.registry.types → v.case? case = some schema → Unpadded case
  parted : ∀ o, .object o ∈ e.registry.types → o.tag = none → ∃ f ∈ o.fields, f.2.optional = false
  ready : ∀ o, .object o ∈ e.registry.types → ∀ f ∈ o.fields, f.2.optional = false →
    Ready e store f.2
  droppable : ∀ o, .object o ∈ e.registry.types → ∀ f ∈ o.fields, f.2.optional = false →
    Droppable e.registry f.2.schema → Idle e f.2
  /-- An empty object in a field of an implied payload is no less than its default. -/
  bare : ∀ v case schema o, .variant v ∈ e.registry.types → v.soleCase? = some (case, schema) →
    e.registry.objectOf? schema = some o → ∀ f ∈ o.fields, f.2.optional = false → Idle e f.2 ∨
      ∀ path t res, e.encode (.object []) (some f.2.schema) f.2.verbatim path = .ok t →
        ((e.reader res).decode t.reread (some f.2.schema)).isEmptyContainer = false

/-- A type of the registry, or none. -/
def Known (e : Encoder) (o : Option ObjectType) : Prop :=
  ∀ t, o = some t → .object t ∈ e.registry.types

namespace Steady

variable (h : Steady e store)

include h

theorem wellKeyed (hk : Known e o) : ∀ t, o = some t → t.WellKeyed := fun t ht =>
  h.keyed.objects t (hk t ht)

theorem unpadded_tag (hk : Known e o) (tag : String) (ht : o.bind ObjectType.tag = some tag) :
    Unpadded tag := by
  obtain ⟨t, rfl, htag⟩ := Option.bind_eq_some_iff.1 ht
  exact h.tag t tag (hk t rfl) htag

theorem parted_or (hk : Known e o) (ht : o.bind ObjectType.tag = none) : o = none ∨ Parted o := by
  cases o with
  | none => exact .inl rfl
  | some t => exact .inr ⟨t, rfl, h.parted t (hk t rfl) ht⟩

theorem ready_of_known (hk : Known e o) :
    ∀ t, o = some t → ∀ f ∈ t.fields, f.2.optional = false → Ready e store f.2 := fun t ht =>
  h.ready t (hk t ht)

theorem idleAt_of_droppableAt (hk : Known e o) {key : String} (hd : DroppableAt e o key) :
    IdleAt e o key := by
  obtain ⟨f, hf, hd⟩ := hd
  intro f' hf' hoptional
  cases hf.symm.trans hf'
  obtain ⟨t, rfl, ht⟩ := Option.bind_eq_some_iff.1 hf
  exact h.droppable t (hk t rfl) (key, f) (Entries.mem_of_get?_eq_some ht) hoptional hd

section

variable (hk : Known e o) {idle : String → Prop} (hc : Carries e store o idle fields)
  (hidle : ∀ key, idle key → IdleAt e o key)

include hk hc hidle in
theorem fieldsSettled (hl : e.Lays o path skipCase fields entries)
    (hknows : KnowsEntries e store res entries)
    (hskip : skipCase = true → declared? o Marker.untypedCase = none) :
    FieldsSettled e store o false ((e.reader res).readBack o entries) :=
  hc.fieldsSettled (h.wellKeyed hk) hl hknows hidle hskip (h.ready_of_known hk)

include hk hc hidle in
/-- An object that keeps a case in a field keeps it again. -/
theorem untyped {case : String} (hcase : untypedCase? fields o = some case)
    (hl : e.Lays o path true fields entries) (hknows : KnowsEntries e store res entries)
    (read : String) : ∃ back, Decoder.untyped read ((e.reader res).readBack o entries) = .object back ∧
      FieldsSettled e store o (untypedCase? back o).isSome back ∧
        (Marker.untypedCase, .string read) ∈ back := by
  have ho := h.wellKeyed hk
  have hundeclared := (untypedCase?_eq_some hcase).2
  have hdistinct := hl.distinct ho hc.distinct
  have hsettled := h.fieldsSettled hk hc hidle hl hknows fun _ => hundeclared
  have hnew : Marker.untypedCase ∉ ((e.reader res).readBack o entries).keys := by
    intro hkey
    obtain ⟨w, hw⟩ := Entries.exists_of_mem_keys hkey
    generalize hname : Marker.untypedCase = name at hw
    cases readsBack_of_mem ho hc.distinct hl hw with
    | attr hattribute _ _ _ => exact absurd (hname ▸ hattribute) (by decide)
    | text _ _ _ => exact absurd hname (by decide)
    | child _ ht _ =>
      exact hl.untypedCase_not_mem ho hundeclared (hname ▸ Entries.mem_keys_of_mem ht)
  refine ⟨_, Decoder.untyped_of_not_mem (Decoder.distinct_readBack hdistinct) hnew read, ?_,
    List.mem_cons_self⟩
  rw [untypedCase?_untyped hcase]
  exact hsettled.untyped hnew read

include hk hc hidle in
/-- What is read back as the fields of an object is settled, or all of them are dropped. -/
theorem lasts_readBack (ht : plainType? (s.map e.registry.resolve) = some o)
    (hl : e.Lays o path false fields entries) (hknows : KnowsEntries e store res entries)
    (hparts : o.bind ObjectType.tag = none → hasParts entries = true)
    (hdeclared : ∀ key, idle key → (declared? o key).isSome = true) :
    Lasts e store s verbatim (.object ((e.reader res).readBack o entries))
      (∀ key ∈ fields.keys, IsFieldName key ∧ idle key) := by
  have ho := h.wellKeyed hk
  have hmember : ∀ f ∈ fields, f ∈ ownFields false fields := fun f hf => by rwa [ownFields_false]
  by_cases hempty : (e.reader res).readBack o entries = []
  · refine .inr ⟨by rw [hempty]; rfl, fun key hkey => ?_⟩
    obtain ⟨v, hv⟩ := Entries.exists_of_mem_keys hkey
    rcases hc.mem_keys_or_idle ho hl hknows (hmember _ hv) with hback | hi
    · rw [hempty] at hback
      cases hback
    · exact hi
  · refine .inl ⟨by simpa [Value.isEmptyContainer] using hempty, settled_plain h.keyed ho ht
      ((h.fieldsSettled hk hc hidle hl hknows (by simp)).skip _) (h.unpadded_tag hk)
      (fun htag => ?_) hempty⟩
    rcases h.parted_or hk htag with rfl | hparted
    · obtain ⟨a, ha, hpart⟩ := List.any_eq_true.1 (hparts htag)
      rcases hl.cases_mem ha with ⟨f, hf, hrel⟩ | ⟨f, hf, -⟩
      · have hne : f.1 ≠ Marker.text := by
          cases hrel with
          | attr hattribute _ _ =>
            rintro rfl
            rw [show Marker.attributeName? Marker.text = none by decide] at hattribute
            cases hattribute
          | @text text _ _ =>
            have hno : ∀ padded : Bool, (Marker.isAttribute (if padded then Marker.verbatim
                else Marker.text) || isChild (if padded then Marker.verbatim else Marker.text)) =
                  false := by decide
            rw [hno] at hpart
            cases hpart
          | child hchild _ => exact (isFieldName_iff.1 hchild).2.1
        rcases hc.mem_keys_or_idle ho hl hknows hf with hback | ⟨-, hi⟩
        · obtain ⟨w, hw⟩ := Entries.exists_of_mem_keys hback
          exact .inr ⟨_, hw, hne⟩
        · exact absurd (hdeclared _ hi) (by simp [declared?])
      · cases hf
    · exact .inl hparted

include hk hc hidle in
/-- An object under its own type. -/
theorem lasts_plain (ht : plainType? (s.map e.registry.resolve) = some o)
    (hl : e.Lays o path (untypedCase? fields o).isSome fields entries)
    (hknows : (e.reader res).Knows store
      (finishObject (untypedCase? fields o) o true entries).reread)
    (hdeclared : ∀ key, idle key → (declared? o key).isSome = true) :
    Lasts e store s verbatim ((e.reader res).decode
        (finishObject (untypedCase? fields o) o true entries).reread s)
      (∀ key ∈ fields.keys, IsFieldName key ∧ idle key) := by
  have ho := h.wellKeyed hk
  by_cases hplain : untypedCase? fields o = none → o.bind ObjectType.tag = none →
      hasParts entries = true ∧ ¬ (true = true ∧ (entries.all fun t => t.2.isPlaceholder) = true)
  · obtain ⟨hentries, hdecode, -⟩ :=
      decode_finishObject ho ht hc.distinct hl (h.unpadded_tag hk) hplain hknows
    rw [hdecode]
    cases hcase : untypedCase? fields o with
    | some case =>
      rw [hcase] at hl
      have hname : Marker.untypedCase ≠ Marker.text := by decide
      obtain ⟨back, hback, hsettled, hmem⟩ :=
        h.untyped hk hc hidle hcase hl hentries (trimText case)
      have hne : back ≠ [] := List.ne_nil_of_mem hmem
      rw [withCase, hback]
      exact .inl ⟨by simpa [Value.isEmptyContainer] using hne, settled_plain h.keyed ho ht hsettled
        (h.unpadded_tag hk) (fun _ => .inr ⟨_, hmem, hname⟩) hne⟩
    | none =>
      rw [hcase] at hl
      exact h.lasts_readBack hk hc hidle ht hl hentries (fun htag => (hplain hcase htag).1) hdeclared
  · have hcase : untypedCase? fields o = none := by
      by_contra hcase
      exact hplain fun hnone => absurd hnone hcase
    have htag : o.bind ObjectType.tag = none := by
      by_contra htag
      exact hplain fun _ hnone => absurd hnone htag
    rw [hcase] at hl hknows ⊢
    rw [finishObject_none htag] at hknows ⊢
    split at hknows
    · next hcollapse =>
      rw [if_pos hcollapse, Decoder.decode_reread_null]
      exact .inr ⟨rfl, fun key hkey => hc.idle_of_collapsed hl hcollapse.2 hkey⟩
    · next hcollapse =>
      have hparts : hasParts entries = false := by
        by_contra hparts
        exact hplain fun _ _ => ⟨by simpa using hparts, hcollapse⟩
      rcases h.parted_or hk htag with rfl | hparted
      · have hs := takesScalar_of_plainType? ht
        rw [reread_map, hparts, if_neg Bool.false_ne_true] at hknows
        rw [if_neg hcollapse, reread_map, hparts, if_neg Bool.false_ne_true, Decoder.decode,
          scalar_eq_settle hknows]
        exact .inl ⟨isEmptyContainer_of_hasText (hasText_settle _ hs), settled_settle hs _⟩
      · rw [hasParts_of_lays ho hl (.inl hparted)] at hparts
        cases hparts

include hk hc hidle in
/-- The payload of a case, which is dropped only in place of an inline variant. -/
theorem lasts_payload {v : VariantType} {case : String} {schema : Schema}
    (hs : s.map e.registry.resolve = some (.variant v)) (hcase : v.case? case = some schema)
    (hsole : v.isInline = true → v.soleCase? = some (case, schema))
    (hschema : e.registry.objectOf? schema = o) (hl : e.Lays o path false fields entries)
    (hknows : (e.reader res).Knows store (finishCase case entries).reread) :
    Lasts e store s verbatim ((e.reader res).decode (finishCase case entries).reread s)
      (v.isInline = true) := by
  have ho := h.wellKeyed hk
  have hv := hl.variant_not_mem ho
  have hkind : Decoder.KindFree entries := fun t ht => hl.kind ho ht
  have hm : Marks case entries _ := .first
  have hunpadded : Unpadded case := by
    obtain ⟨schema', -, hresolve⟩ := Option.map_eq_some_iff.1 hs
    exact h.case v case schema (Registry.mem_types_of_resolve_variant hresolve) hcase
  rw [finishCase_eq ho hc.distinct hl] at hknows ⊢
  have hsettled := h.fieldsSettled hk hc hidle hl (hm.knowsEntries hkind hknows) (by simp)
  have hobject : (e.reader res).registry.objectOf? schema = o := hschema
  rw [hm.decode_case hkind hv hunpadded hs hcase, hobject]
  cases hinline : v.isInline with
  | true =>
    rw [if_pos rfl]
    by_cases hempty : (e.reader res).readBack o entries = []
    · exact .inr ⟨by rw [hempty]; rfl, rfl⟩
    · exact .inl ⟨by simpa [Value.isEmptyContainer] using hempty,
        settled_inline h.keyed ho hs hinline (hsole hinline) hschema hunpadded hsettled hempty⟩
  | false =>
    rw [if_neg Bool.false_ne_true]
    exact .inl ⟨rfl, settled_case h.keyed ho hs hinline hcase hschema hunpadded hsettled⟩

end

/-- An empty object, which is filled in where it stands. -/
theorem lasts_nil {t : Tree} (hencode : e.encode (.object []) s verbatim path = .ok t)
    (hknows : (e.reader res).Knows store t.reread) :
    Lasts e store s verbatim ((e.reader res).decode t.reread s) True := by
  have hshape := (encode_object_eq_ok_iff h.keyed).1 hencode
  have hcarries : ∀ o, Carries e store o (fun _ => False) [] := fun o =>
    ⟨List.nodup_nil, by simp, by simp⟩
  generalize hresolved : s.map e.registry.resolve = resolved at hshape
  cases hshape with
  | plain ht hl =>
    subst hresolved
    have hk : Known e _ := fun u hu => mem_types_of_plainType? ht hu
    exact (h.lasts_plain hk (hcarries _) (by simp) ht hl hknows (by simp)).imp fun _ => trivial
  | blank _ _ =>
    rw [Decoder.decode_reread_null]
    exact .inr ⟨rfl, trivial⟩
  | explicit _ hf _ _ => cases hf
  | implied hf _ _ _ => exact absurd rfl hf

/-! ## Lists -/

/-- The items of a list, without those that are dropped. -/
theorem lasts_list {items : List Value} {t : Tree} (hfilled : ∀ v ∈ items, v.isEmptyContainer = false)
    (heach : ∀ item, itemType? (s.map e.registry.resolve) = some item → ∀ v ∈ items, ∀ path t,
      e.encode v item false path = .ok t → (e.reader res).Knows store t.reread →
        Lasts e store item false ((e.reader res).decode t.reread item)
          (∃ schema, item = some schema ∧ Droppable e.registry schema))
    (hencode : e.encode (.list items) s verbatim path = .ok t)
    (hknows : (e.reader res).Knows store t.reread) :
    Lasts e store s verbatim ((e.reader res).decode t.reread s)
      (items = [] ∨ ∃ schema, s = some schema ∧ Droppable e.registry schema) := by
  obtain ⟨item, ts, hitem, hitems, rfl⟩ := encode_list_eq_ok_iff.1 hencode
  have hencoded := forall₂_of_encodeItems hitems
  have hlasts : ∀ t ∈ ts, Lasts e store item false ((e.reader res).decode t.reread item)
      (∃ schema, item = some schema ∧ Droppable e.registry schema) := by
    intro t ht
    obtain ⟨v, hv, p, hp⟩ := mem_of_forall₂_right hencoded ht
    exact heach item hitem v hv p t hp (knows_of_mem_array hknows ht)
  rw [decode_encoded_list h.keyed hencoded, Decoder.itemHint_of_itemType? hitem]
  have hkeeps : ∀ v, (e.reader res).keeps v = true ↔ v.isEmptyContainer = false := fun v => keeps_iff
  by_cases hempty : (ts.map fun t => (e.reader res).decode t.reread item).filter
      (e.reader res).keeps = []
  · refine .inr ⟨by rw [hempty]; rfl, ?_⟩
    cases hencoded with
    | nil => exact .inl rfl
    | @cons v t vs ts _ _ =>
      right
      have hdropped := List.filter_eq_nil_iff.1 hempty _ (List.mem_map_of_mem List.mem_cons_self)
      rcases hlasts t List.mem_cons_self with ⟨hkept, -⟩ | ⟨-, schema, rfl, hd⟩
      · exact absurd ((hkeeps _).2 hkept) hdropped
      · obtain ⟨schema', rfl, hresolve⟩ := resolve_of_itemType? hitem
        exact ⟨schema', rfl, .list hresolve hd⟩
  · refine .inl ⟨by simpa [Value.isEmptyContainer] using hempty, settled_list h.keyed hitem ?_⟩
    intro w hw
    obtain ⟨hw, hkept⟩ := List.mem_filter.1 hw
    obtain ⟨t, ht, rfl⟩ := List.mem_map.1 hw
    rcases hlasts t ht with hsettled | ⟨hdropped, -⟩
    · exact hsettled
    · rw [(hkeeps _).1 hkept] at hdropped
      cases hdropped

end Steady

/-! ## Tidy values -/

/-- What a tidy value has in common with what is read back of it, by its place. -/
def Settles (e : Encoder) (store : Store) : Place → Value → Prop
  | .value s, v => ∀ verbatim path t res, e.encode v s verbatim path = .ok t →
      (e.reader res).Knows store t.reread →
        Lasts e store s verbatim ((e.reader res).decode t.reread s)
          (v.isEmptyContainer = true ∨ ∃ schema, s = some schema ∧ Droppable e.registry schema)
  | .body o, v => ∀ fields, v = .object fields → Carries e store o (DroppableAt e o) fields
  | .implied o, v => ∀ fields, v = .object fields →
      (∃ w case schema, .variant w ∈ e.registry.types ∧ w.soleCase? = some (case, schema) ∧
        e.registry.objectOf? schema = o) → Carries e store o (IdleAt e o) fields

theorem Carries.imp {idle idle' : String → Prop} (h : Carries e store o idle fields)
    (himp : ∀ key, idle key → idle' key) : Carries e store o idle' fields :=
  ⟨h.distinct, h.data, fun key v path t res hv hk ht hknows =>
    (h.each key v path t res hv hk ht hknows).imp (himp key)⟩

namespace Steady

variable (h : Steady e store)

include h

/-- The induction step for objects, whose fields are those of a type or of a case. -/
theorem settles_object
    (plain : ∀ o, plainType? (s.map e.registry.resolve) = some o →
      Carries e store o (DroppableAt e o) fields)
    (explicit : ∀ w case schema payload inner, s.map e.registry.resolve = some (.variant w) →
      explicitCase? w fields = some (case, schema) → fields = [(case, payload)] →
      objectFields? payload = some inner → Carries e store (e.registry.objectOf? schema)
        (DroppableAt e (e.registry.objectOf? schema)) inner)
    (implied : ∀ w case schema, s.map e.registry.resolve = some (.variant w) →
      explicitCase? w fields = none → w.soleCase? = some (case, schema) →
      Carries e store (e.registry.objectOf? schema) (IdleAt e (e.registry.objectOf? schema)) fields) :
    Settles e store (.value s) (.object fields) := by
  intro verbatim path t res hencode hknows
  have hshape := (encode_object_eq_ok_iff h.keyed).1 hencode
  have hobjectOf : ∀ schema, Known e (e.registry.objectOf? schema) := fun schema u hu =>
    Registry.mem_types_of_objectOf? hu
  generalize hresolved : s.map e.registry.resolve = resolved at hshape
  cases hshape with
  | @plain _ o entries ht hl =>
    subst hresolved
    have hk : Known e o := fun u hu => mem_types_of_plainType? ht hu
    refine (h.lasts_plain hk (plain o ht) (fun key => h.idleAt_of_droppableAt hk) ht hl hknows
      fun key hd => ?_).imp fun hall => ?_
    · obtain ⟨f, hf, -⟩ := hd
      rw [hf]
      rfl
    · cases fields with
      | nil => exact .inl rfl
      | cons field rest =>
        obtain ⟨-, f, hf, hd⟩ := hall field.1 List.mem_cons_self
        obtain ⟨u, rfl, hu⟩ := Option.bind_eq_some_iff.1 hf
        obtain ⟨schema, rfl, hresolve⟩ := resolve_of_plainType? ht
        exact .inr ⟨schema, rfl, .object hresolve (Entries.mem_of_get?_eq_some hu) hd⟩
  | blank _ hf =>
    rw [Decoder.decode_reread_null]
    exact .inr ⟨rfl, .inl (by rw [hf]; rfl)⟩
  | @explicit w case schema payload inner entries hc hf hp hl =>
    obtain ⟨hinline, hcase, -⟩ := explicitCase?_eq_some_iff.1 hc
    refine (h.lasts_payload (hobjectOf schema) (explicit w case schema payload inner hresolved hc hf
      hp) (fun key => h.idleAt_of_droppableAt (hobjectOf schema)) hresolved hcase (by simp [hinline])
      rfl hl hknows).imp fun hi => ?_
    rw [hinline] at hi
    cases hi
  | @implied w case schema entries hf hc hsole hl =>
    obtain ⟨schema', hs, hresolve⟩ := Option.map_eq_some_iff.1 hresolved
    refine (h.lasts_payload (hobjectOf schema) (implied w case schema hresolved hc hsole)
      (fun _ hi => hi) hresolved (VariantType.case?_of_soleCase? hsole) (fun _ => hsole) rfl hl
      hknows).imp fun hi => ?_
    exact .inr ⟨schema', hs, .inline hresolve hi⟩

/-- A case without a payload where another case is implied: a field of the implied payload that holds
an empty object. -/
theorem carries_bare {w : VariantType} {case : String} {schema : Schema}
    (hw : .variant w ∈ e.registry.types) (hsole : w.soleCase? = some (case, schema)) (c : String) :
    Carries e store (e.registry.objectOf? schema) (IdleAt e (e.registry.objectOf? schema))
      [(c, .object [])] := by
  have hnil : ∀ key v, (key, v) ∈ [(c, Value.object [])] → v = .object [] := by
    intro key v hv
    exact (Prod.mk.inj (List.mem_singleton.1 hv)).2
  refine ⟨List.nodup_singleton _, fun v hv => ?_, fun key v path t res hv hk hencode hknows => ?_⟩
  · rw [hnil _ v hv]
    simp [wireText?, Value.scalarText?]
  · obtain rfl := hnil key v hv
    rcases h.lasts_nil hencode hknows with hsettled | ⟨hempty, -⟩
    · exact .inl hsettled
    · refine .inr ⟨hempty, fun f hf hoptional => ?_⟩
      obtain ⟨u, hu, hmem⟩ := Option.bind_eq_some_iff.1 hf
      rcases h.bare w case schema u hw hsole hu (key, f) (Entries.mem_of_get?_eq_some hmem)
        hoptional with hi | hfilled
      · exact hi
      · rw [hf] at hencode hempty
        rw [Option.map_some] at hempty
        rw [hfilled path t res hencode] at hempty
        cases hempty

/-- Every tidy value is settled by one round. -/
theorem settles {place : Place} {v : Value} (ht : Tidy e store false place v) :
    Settles e store place v := by
  induction ht with
  | null _ hkeeps => cases hkeeps
  | bool s b =>
    exact fun verbatim path t res hencode hknows =>
      .inl (settled_of_scalar rfl (.bool s b) hencode hknows)
  | number s n =>
    exact fun verbatim path t res hencode hknows =>
      .inl (settled_of_scalar rfl (.number s n) hencode hknows)
  | string s text =>
    exact fun verbatim path t res hencode hknows =>
      .inl (settled_of_scalar rfl (.string s text) hencode hknows)
  | reference s found =>
    exact fun verbatim path t res hencode hknows =>
      .inl (settled_of_scalar rfl (.reference s found) hencode hknows)
  | @list s items hfilled each ih =>
    intro verbatim path t res hencode hknows
    have filled := hfilled rfl
    refine (h.lasts_list filled (fun item hitem v hv p t hp hk => ?_) hencode hknows).imp
      (Or.imp_left fun hnil => by rw [hnil]; rfl)
    refine (ih item hitem v hv false p t res hp hk).imp fun hdropped => ?_
    rcases hdropped with hempty | hdroppable
    · rw [filled v hv] at hempty
      cases hempty
    · exact hdroppable
  | @object s fields _ plain explicit implied ihplain ihexplicit ihimplied =>
    exact h.settles_object (fun o ht => ihplain o ht fields rfl)
      (fun w case schema payload inner hresolved hc hf hp =>
        ihexplicit w case schema payload inner hresolved hc hf hp inner rfl)
      fun w case schema hresolved hc hsole =>
        have ⟨_, _, hresolve⟩ := Option.map_eq_some_iff.1 hresolved
        ihimplied w case schema hresolved hc hsole fields rfl
          ⟨w, case, schema, Registry.mem_types_of_resolve_variant hresolve, hsole, rfl⟩
  | @body o fields distinct data hfilled each ih =>
    intro fields' heq
    have filled := hfilled rfl
    obtain rfl := Value.object.inj heq
    refine ⟨distinct, data, fun key v path t res hv hk hencode hknows => ?_⟩
    refine (ih key v hv hk _ path t res hencode hknows).imp fun hdropped => ?_
    rcases hdropped with hempty | ⟨schema, hschema, hd⟩
    · rw [filled key v hv] at hempty
      cases hempty
    · obtain ⟨f, hf, rfl⟩ := Option.map_eq_some_iff.1 hschema
      exact ⟨f, hf, hd⟩
  | @whole o v hbody ih =>
    rintro fields rfl ⟨w, case, schema, hw, hsole, rfl⟩
    exact (ih fields rfl).imp fun key => h.idleAt_of_droppableAt fun u hu =>
      Registry.mem_types_of_objectOf? hu
  | bare o c =>
    rintro fields heq ⟨w, case, schema, hw, hsole, rfl⟩
    exact Value.object.inj heq ▸ h.carries_bare hw hsole c

end Steady

end TaggedMarkup
