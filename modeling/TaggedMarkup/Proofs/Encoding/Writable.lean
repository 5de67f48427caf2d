import TaggedMarkup.Proofs.Encoding.Shapes
import TaggedMarkup.Proofs.Markup.RoundTrip
/-!
# Encoded trees can be written

The encoder checks the names of elements and takes those of attributes as they come. Where these are
names, in the value and in the literals that fill it in, the tree is one that reading undoes.
-/
namespace TaggedMarkup

open Markup

namespace Tree

/-- An entry that can stand in a written element. -/
inductive WritableEntry : String × Tree → Prop
  | attr {key name : String} (hk : Marker.attributeName? key = some name) (hn : IsName name)
      (text : String) : WritableEntry (key, .text text)
  | data {key : String} (hk : key = Marker.text ∨ key = Marker.verbatim) (text : String) :
      WritableEntry (key, .text text)
  | child {key : String} {t : Tree} (hk : isChild key = true) (hn : IsName key) (ht : t.Writable) :
      WritableEntry (key, t)

theorem WritableEntry.of_writable {entries : Entries Tree} (h : (Tree.map entries).Writable)
    {entry : String × Tree} (he : entry ∈ entries) : WritableEntry entry := by
  obtain ⟨key, t⟩ := entry
  cases h with
  | map distinct attributes data names children =>
    cases ha : Marker.isAttribute key with
    | true =>
      obtain ⟨⟨name, hk, hn⟩, v, rfl⟩ := attributes key t he ha
      exact .attr hk hn v
    | false =>
      by_cases hk : key = Marker.text ∨ key = Marker.verbatim
      · obtain ⟨v, rfl⟩ := data key t he hk
        exact .data hk v
      · rw [not_or] at hk
        have hchild : isChild key = true := isChild_iff.2 ⟨ha, hk⟩
        exact .child hchild (names key t he hchild) (children key t he hchild)

theorem writable_map {entries : Entries Tree} (hd : entries.Distinct)
    (h : ∀ entry ∈ entries, WritableEntry entry) : (Tree.map entries).Writable := by
  refine .map hd (fun key t ht ha => ?_) (fun key t ht hk => ?_) (fun key t ht hk => ?_)
    fun key t ht hk => ?_
  · cases h _ ht with
    | attr hk hn text => exact ⟨⟨_, hk, hn⟩, text, rfl⟩
    | data hk text => rcases hk with rfl | rfl <;> exact absurd ha (by decide)
    | child hk _ _ =>
      rw [(isChild_iff.1 hk).1] at ha
      cases ha
  · cases h _ ht with
    | attr _ _ text => exact ⟨text, rfl⟩
    | data _ text => exact ⟨text, rfl⟩
    | child hc _ _ =>
      rcases hk with rfl | rfl
      · exact absurd rfl (isChild_iff.1 hc).2.1
      · exact absurd rfl (isChild_iff.1 hc).2.2
  · cases h _ ht with
    | attr ha _ _ =>
      rw [isChild_iff, Marker.isAttribute, ha] at hk
      exact Bool.noConfusion hk.1
    | data hd _ => rcases hd with rfl | rfl <;> exact absurd hk (by decide)
    | child _ hn _ => exact hn
  · cases h _ ht with
    | attr _ _ text => exact .text text
    | data _ text => exact .text text
    | child _ _ ht => exact ht

end Tree

namespace Value

/-- A value with a text of its own. -/
def hasText : Value → Bool
  | .null | .list _ | .object _ => false
  | _ => true

mutual

/-- Attributes in the objects inside have names; those without a text cannot be written anyway. -/
def isNamed : Value → Bool
  | .list items => areNamed items
  | .object fields => haveNamed fields
  | _ => true

def areNamed : List Value → Bool
  | [] => true
  | v :: rest => isNamed v && areNamed rest

def haveNamed : List (String × Value) → Bool
  | [] => true
  | (key, v) :: rest =>
    ((Marker.attributeName? key).all fun name => !v.hasText || decide (IsName name)) &&
      isNamed v && haveNamed rest

end

theorem isNamed_list_iff {items : List Value} :
    (Value.list items).isNamed = true ↔ ∀ v ∈ items, v.isNamed = true := by
  rw [isNamed]
  induction items with
  | nil => simp [areNamed]
  | cons v rest ih => simp [areNamed, ih]

theorem isNamed_object_iff {fields : Entries Value} :
    (Value.object fields).isNamed = true ↔ ∀ key v, (key, v) ∈ fields →
      (∀ name, Marker.attributeName? key = some name → v.hasText = true → IsName name) ∧
        v.isNamed = true := by
  rw [isNamed]
  induction fields with
  | nil => simp [haveNamed]
  | cons f rest ih =>
    obtain ⟨key, v⟩ := f
    simp only [haveNamed, Bool.and_eq_true, ih, Option.all_eq_true, Bool.or_eq_true,
      Bool.not_eq_true', decide_eq_true_eq, List.mem_cons, Prod.mk.injEq, ← Bool.not_eq_true,
      ← imp_iff_not_or]
    constructor
    · rintro ⟨⟨hname, hv⟩, hrest⟩ k u (⟨rfl, rfl⟩ | hm)
      · exact ⟨hname, hv⟩
      · exact hrest k u hm
    · intro h
      exact ⟨h key v (.inl ⟨rfl, rfl⟩), fun k u hm => h k u (.inr hm)⟩

end Value

/-- Attributes in the literals of a type have names. -/
def ObjectType.isNamed (o : ObjectType) : Bool :=
  (o.fields.all fun f => f.2.defaultValue.all Value.isNamed) && o.defaultValue.all Value.isNamed

def Registry.isNamed (r : Registry) : Bool :=
  r.types.all fun t => match t with
    | .object o => o.isNamed
    | .variant v => v.defaultValue.all Value.isNamed

namespace Registry

variable {r : Registry}

theorem mem_types_of_objectOf? {schema : Schema} {o : ObjectType}
    (h : r.objectOf? schema = some o) : .object o ∈ r.types := by
  unfold objectOf? at h
  split at h
  · next p hp => exact Option.some.inj h ▸ mem_types_of_resolve hp
  · cases h

theorem isNamed_of_defaultValue (hn : r.isNamed = true) {o : ObjectType} (ho : .object o ∈ r.types)
    {name : String} {f : Field} (hf : (name, f) ∈ o.fields) {v : Value}
    (hv : f.defaultValue = some v) : v.isNamed = true := by
  have hobject : o.isNamed = true := List.all_eq_true.1 hn _ ho
  rw [ObjectType.isNamed, Bool.and_eq_true] at hobject
  have hdefault := List.all_eq_true.1 hobject.1 _ hf
  rw [hv] at hdefault
  exact hdefault

theorem isNamed_synthesize (hr : r.WellKeyed) (hn : r.isNamed = true) (schema : Schema) :
    (r.synthesize schema).isNamed = true := by
  have heach := List.all_eq_true.1 hn
  refine synthesize_induction (P := fun v => v.isNamed = true)
    (Q := fun o => .object o ∈ r.types) (fun _ _ => mem_types_of_resolve) rfl rfl
    (fun o name f v ho hf hv => isNamed_of_defaultValue hn ho hf hv)
    (fun o v ho hv => ?_) (fun v d hv hd => ?_) (fun o expand ho hfields => ?_) schema
  · have hobject : o.isNamed = true := heach _ ho
    rw [ObjectType.isNamed, Bool.and_eq_true, hv] at hobject
    exact hobject.2
  · have hdefault : v.defaultValue.all Value.isNamed = true := heach _ hv
    rw [hd] at hdefault
    exact hdefault
  · refine Value.isNamed_object_iff.2 fun key v hm => ⟨fun name ha _ => ?_, hfields key v hm⟩
    obtain ⟨⟨k, f⟩, hf, he⟩ := List.mem_map.1 hm
    obtain ⟨rfl, -⟩ := Prod.mk.inj he
    have hname := (hr.objects o ho).names k f (List.mem_of_mem_filter hf)
    rw [(isFieldName_iff.1 hname).1] at ha
    cases ha

theorem isNamed_synthesizeField (hr : r.WellKeyed) (hn : r.isNamed = true) {o : ObjectType}
    (ho : .object o ∈ r.types) {name : String} {f : Field} (hf : (name, f) ∈ o.fields) :
    (r.synthesizeField f).isNamed = true := by
  unfold Registry.synthesizeField
  cases hd : f.defaultValue with
  | none => exact isNamed_synthesize hr hn f.schema
  | some d => exact isNamed_of_defaultValue hn ho hf hd

end Registry

namespace Encoder

open TaggedMarkup.Tree

variable {e : Encoder} {o : Option ObjectType} {path : Path} {fields : Entries Value}
  {skipCase : Bool} {entries : Entries Tree} {t : Tree}

/-- What fields are filled in with can be written. -/
def FillsWritable (e : Encoder) : Prop :=
  ∀ o name f path t, .object o ∈ e.registry.types → (name, f) ∈ o.fields →
    e.fill f path = .ok t → t.Writable ∧ t.isList = false

theorem hasText_of_wireText? {v : Value} {text : String} (h : e.wireText? v = some text) :
    v.hasText = true := by
  cases v with
  | null => cases h
  | list _ => cases h
  | object _ => cases h
  | _ => rfl

theorem isChild_of_isFieldName {key : String} (h : IsFieldName key) : isChild key = true := by
  obtain ⟨ha, htext, hreserved, -⟩ := isFieldName_iff.1 h
  refine isChild_iff.2 ⟨by rw [Marker.isAttribute, ha]; rfl, htext, ?_⟩
  exact ne_of_isReserved Marker.verbatim (by decide) hreserved

theorem writable_of_lays (hf : e.FillsWritable) (hr : e.registry.WellKeyed)
    (ho : ∀ t, o = some t → .object t ∈ e.registry.types) (hd : fields.Distinct)
    (hn : (Value.object fields).isNamed = true)
    (heach : ∀ key v schema verbatim path t, (key, v) ∈ fields →
      e.encode v schema verbatim path = .ok t → t.Writable)
    (hl : e.Lays o path skipCase fields entries) : (Tree.map entries).Writable := by
  have hwell : ∀ t, o = some t → t.WellKeyed := fun t ht => hr.objects t (ho t ht)
  refine writable_map (hl.distinct hwell hd) fun entry hentry => ?_
  rcases hl.cases_mem hentry with ⟨f, hm, hrel⟩ | ⟨⟨name, f⟩, hm, hkey, hfill⟩
  · have hmem := List.mem_of_mem_filter hm
    cases hrel with
    | attr hk ht _ =>
      exact .attr hk ((Value.isNamed_object_iff.1 hn _ _ hmem).1 _ hk (hasText_of_wireText? ht)) _
    | text _ =>
      refine .data ?_ _
      split
      · exact .inr rfl
      · exact .inl rfl
    | child hk ht =>
      exact .child (isChild_of_isFieldName hk) (isName_of_isElementName hk.1)
        (heach _ _ _ _ _ _ hmem ht)
  · obtain ⟨key, t⟩ := entry
    obtain rfl : key = name := hkey
    obtain ⟨⟨u, hu, hmem⟩, -, -⟩ := mem_missingFields.1 hm
    have hname := (hwell u hu).names _ _ hmem
    exact .child (isChild_of_isFieldName hname) (isName_of_isElementName hname.1)
      (hf u _ f _ _ (ho u hu) hmem hfill).1

/-- A case marker may stand before or behind the entries of an object. -/
theorem writable_marked {case : String} {marked : Entries Tree} (h : Marks case entries marked)
    (hw : (Tree.map entries).Writable) (hd : entries.Distinct)
    (hv : Marker.variant ∉ entries.keys) : (Tree.map marked).Writable := by
  refine writable_map (h.distinct hd hv) fun entry hentry => ?_
  rcases h.mem_iff.1 hentry with rfl | hentry
  · exact .child (by decide) (by decide) (.text case)
  · exact .of_writable hw hentry

theorem writable_finishObject (ho : ∀ t, o = some t → t.WellKeyed) (hd : fields.Distinct)
    (hl : e.Lays o path skipCase fields entries) (hw : (Tree.map entries).Writable)
    (case : Option String) (collapse : Bool) :
    (finishObject case o collapse entries).Writable ∧
      (finishObject case o collapse entries).isList = false := by
  have hv := hl.variant_not_mem ho
  have hdistinct := hl.distinct ho hd
  cases case with
  | some case =>
    rw [finishObject_some ho hd hl]
    exact ⟨writable_marked .first hw hdistinct hv, rfl⟩
  | none =>
    cases ht : o.bind ObjectType.tag with
    | some tag =>
      rw [finishObject_tag ho hl ht]
      exact ⟨writable_marked .last hw hdistinct hv, rfl⟩
    | none =>
      rw [finishObject_none ht]
      split
      · exact ⟨writable_of_isWritable _ (by decide), rfl⟩
      · exact ⟨hw, rfl⟩

theorem attributeName?_kind : Marker.attributeName? Marker.kind = some "type" := by decide

theorem writable_array {items : List Tree} (h : ∀ t ∈ items, t.Writable ∧ t.isList = false) :
    (Tree.array items).Writable ∧ (Tree.array items).isList = false := by
  unfold Tree.array
  split
  · exact ⟨writable_of_isWritable _ (by decide), rfl⟩
  · next hne =>
    have hitems : (Tree.list items).Writable :=
      .list (by simpa using hne) (fun t ht => (h t ht).2) fun t ht => (h t ht).1
    refine ⟨writable_map (by simp [Entries.Distinct, Marker.kind, Marker.item]) ?_, rfl⟩
    intro entry hentry
    simp only [List.mem_cons, List.not_mem_nil, or_false] at hentry
    rcases hentry with rfl | rfl
    · exact .attr attributeName?_kind (by decide) _
    · exact .child (by decide) (by decide) hitems

theorem writable_typed (kind : Kind) (text : String) : (Tree.typed kind text).Writable := by
  refine writable_map (by simp [Entries.Distinct, Marker.kind, Marker.text]) ?_
  intro entry hentry
  simp only [List.mem_cons, List.not_mem_nil, or_false] at hentry
  rcases hentry with rfl | rfl
  · exact .attr attributeName?_kind (by decide) _
  · exact .data (.inl rfl) _

theorem writable_stringTree (text : String) (verbatim : Bool) :
    (stringTree text verbatim).Writable ∧ (stringTree text verbatim).isList = false := by
  unfold stringTree
  split
  · refine ⟨writable_map (List.nodup_singleton _) fun entry hentry => ?_, rfl⟩
    rw [List.mem_singleton.1 hentry]
    exact .data (.inr rfl) text
  · split
    · exact ⟨writable_typed .string text, rfl⟩
    · exact ⟨.text text, rfl⟩

theorem writable_scalarTree {v : Value} {verbatim : Bool}
    (h : e.scalarTree verbatim v = some t) : t.Writable ∧ t.isList = false := by
  cases v with
  | bool b => exact Option.some.inj h ▸ ⟨writable_typed .boolean _, rfl⟩
  | string text => exact Option.some.inj h ▸ writable_stringTree text verbatim
  | number n => exact Option.some.inj h ▸ ⟨.text _, rfl⟩
  | reference r => exact Option.some.inj h ▸ ⟨.text _, rfl⟩
  | _ => cases h

/-- The elements of a value can be written. -/
def ElementsWritable (e : Encoder) (v : Value) : Prop :=
  ∀ schema verbatim path t, e.encode v schema verbatim path = .ok t → t.Writable ∧ t.isList = false

/-- The entries of a value can be written as those of one element. -/
def EntriesWritable (e : Encoder) (v : Value) : Prop :=
  ∀ fields o path skipCase entries, objectFields? v = some fields →
    (∀ t, o = some t → .object t ∈ e.registry.types) → e.Lays o path skipCase fields entries →
    (Tree.map entries).Writable

theorem writable_finishCase {case : String} (ho : ∀ t, o = some t → t.WellKeyed)
    (hd : fields.Distinct) (hl : e.Lays o path false fields entries)
    (hw : (Tree.map entries).Writable) :
    (finishCase case entries).Writable ∧ (finishCase case entries).isList = false := by
  rw [finishCase_eq ho hd hl]
  exact ⟨writable_marked .first hw (hl.distinct ho hd) (hl.variant_not_mem ho), rfl⟩

/-- The induction step for objects: the entries are those of the object, or of the payload of a
case. -/
theorem elementsWritable_object (hr : e.registry.WellKeyed) (hk : (Value.object fields).Keyed)
    (hentries : EntriesWritable e (.object fields))
    (hinner : ∀ key v, (key, v) ∈ fields → EntriesWritable e v) :
    ElementsWritable e (.object fields) := by
  intro schema verbatim path t h
  have hmem : ∀ schema t, e.registry.objectOf? schema = some t → .object t ∈ e.registry.types :=
    fun schema t ht => Registry.mem_types_of_objectOf? ht
  have hwell : ∀ schema t, e.registry.objectOf? schema = some t → t.WellKeyed :=
    fun schema t => hr.of_objectOf?
  have hshape := (encode_object_eq_ok_iff hr).1 h
  generalize hresolved : schema.map e.registry.resolve = resolved at hshape
  cases hshape with
  | @plain resolved o entries ht hl =>
    have ho : ∀ t, o = some t → .object t ∈ e.registry.types := fun t =>
      mem_types_of_plainType? (by rw [hresolved]; exact ht)
    exact writable_finishObject (fun t h => hr.objects t (ho t h)) hk.distinct hl
      (hentries _ _ _ _ _ rfl ho hl) _ _
  | blank _ _ => exact ⟨writable_of_isWritable _ (by decide), rfl⟩
  | @explicit v case s payload inner entries hc hfields hp hl =>
    have hpayload : (case, payload) ∈ fields := by simp [hfields]
    have hdistinct : inner.Distinct := distinct_of_objectFields? (hk.of_mem_fields hpayload) hp
    exact writable_finishCase (hwell s) hdistinct hl
      (hinner case payload hpayload inner _ _ _ _ hp (hmem s) hl)
  | @implied v case s entries _ _ _ hl =>
    exact writable_finishCase (hwell s) hk.distinct hl (hentries _ _ _ _ _ rfl (hmem s) hl)

/-- The statement for a value and for the fields that it has as an object. -/
theorem writable_of_keyed (hf : e.FillsWritable) (hr : e.registry.WellKeyed) {v : Value}
    (hk : v.Keyed) : v.isNamed = true → ElementsWritable e v ∧ EntriesWritable e v := by
  have hleaf : ∀ v : Value, objectFields? v = none → EntriesWritable e v := by
    intro v hnone fields o path skipCase entries hfields
    cases hnone.symm.trans hfields
  have hscalar : ∀ v : Value, (∀ verbatim, e.scalarTree verbatim v ≠ none) →
      ElementsWritable e v := fun v hv schema verbatim path t h =>
    writable_scalarTree (encode_scalar (hv _) h)
  induction hk with
  | null =>
    refine fun _ => ⟨fun schema verbatim path t h => ?_,
      fun fields o path skipCase entries hv ho hl => ?_⟩
    · rw [encode] at h
      exact Except.ok.inj h ▸ ⟨writable_of_isWritable _ (by decide), rfl⟩
    · cases hv
      exact writable_of_lays hf hr ho (show Entries.Distinct [] from List.nodup_nil) rfl (by simp) hl
  | bool b => exact fun _ => ⟨hscalar _ (by simp [scalarTree]), hleaf _ rfl⟩
  | number n => exact fun _ => ⟨hscalar _ (by simp [scalarTree]), hleaf _ rfl⟩
  | string text => exact fun _ => ⟨hscalar _ (by simp [scalarTree]), hleaf _ rfl⟩
  | reference r => exact fun _ => ⟨hscalar _ (by simp [scalarTree]), hleaf _ rfl⟩
  | @list items _ ih =>
    refine fun hn => ⟨fun schema verbatim path t h => ?_, hleaf _ rfl⟩
    obtain ⟨item, ts, -, hts, rfl⟩ := encode_list_eq_ok_iff.1 h
    refine writable_array fun u hu => ?_
    obtain ⟨v, hv, q, hq⟩ := mem_of_forall₂_right (forall₂_of_encodeItems hts) hu
    exact (ih v hv (Value.isNamed_list_iff.1 hn v hv)).1 _ _ _ _ hq
  | @object fields hd hkeyed ih =>
    intro hn
    have heach : ∀ key v, (key, v) ∈ fields → v.isNamed = true := fun key v hm =>
      (Value.isNamed_object_iff.1 hn key v hm).2
    have hentries : EntriesWritable e (.object fields) := by
      intro inner o path skipCase entries hv ho hl
      cases hv
      exact writable_of_lays hf hr ho hd hn
        (fun key v _ _ _ t hm ht => ((ih key v hm (heach key v hm)).1 _ _ _ t ht).1) hl
    exact ⟨elementsWritable_object hr (.object hd hkeyed) hentries fun key v hm =>
      (ih key v hm (heach key v hm)).2, hentries⟩

theorem fillsWritable_ofRegistry {r : Registry} (hr : r.WellKeyed) (hn : r.isNamed = true)
    (c : Convention) : (ofRegistry r c).FillsWritable := by
  have hchain : ∀ chain, FillsWritable ⟨r, c, fillField r c chain⟩ := by
    intro chain
    induction chain with
    | zero =>
      intro o name f path t ho hf h
      cases h
    | succ chain ih =>
      intro o name f path t ho hf h
      exact (writable_of_keyed ih hr (hr.synthesizeField (hr.objects o ho) hf)
        (Registry.isNamed_synthesizeField hr hn ho hf)).1 _ _ _ _ h
  exact hchain (fieldCount r)

theorem writable_of_encodeRoot (hf : e.FillsWritable) (hr : e.registry.WellKeyed) {v : Value}
    (hk : v.Keyed) (hn : v.isNamed = true) {schema : Schema} (h : e.encodeRoot v schema = .ok t) :
    t.Writable := by
  cases (encodeRoot_eq_ok_iff hr).1 h with
  | @body fields o entries hv ht hl =>
    have ho : ∀ t, o = some t → .object t ∈ e.registry.types := fun t =>
      mem_types_of_plainType? (show plainType? ((some schema).map e.registry.resolve) = some o from ht)
    have hdistinct : fields.Distinct := distinct_of_objectFields? hk hv
    exact (writable_finishObject (fun t h => hr.objects t (ho t h)) hdistinct hl
      ((writable_of_keyed hf hr hk hn).2 fields o _ _ entries hv ho hl) _ _).1
  | nested _ h => exact ((writable_of_keyed hf hr hk hn).1 _ _ _ t h).1

theorem isDocument_root (h : t.Writable) : (Tree.map [(Marker.root, t)]).IsDocument := by
  refine ⟨writable_map (List.nodup_singleton _) fun entry hentry => ?_, _, rfl, by simp, ?_⟩
  · rw [List.mem_singleton.1 hentry]
    exact .child (by decide) (by decide) h
  · intro key hk
    obtain rfl : key = Marker.root := List.mem_singleton.1 hk
    decide

end Encoder

end TaggedMarkup
