import Mathlib.Logic.Relation
import TaggedMarkup.Proofs.Analytics
import TaggedMarkup.Proofs.Encoding.Shapes
import TaggedMarkup.Proofs.Tree.NormalForm
import TaggedMarkup.Profile
/-!
# What an encoding holds

A site is a part of a value beside the node that stands for it. `Site.enter?` goes on to a part of
the part, following a field or position in the value and its entry or item in the node, and
`Site.Part` also goes on to fields that are filled in. `Site.Encoded` holds at the root of an
encoding and is kept by both, which gives the two main facts: a path to a scalar in the value leads
to a node with its text, and an element of an object type has every field of the type that is not
optional.
-/
namespace TaggedMarkup

open Encoder

namespace Tree

def lookup? (t : Tree) (key : String) : Option Tree :=
  t.asEntries?.bind fun entries => Entries.get? entries key

/-- The items of a list element. -/
def items (t : Tree) : List Tree :=
  match t.lookup? Marker.item with
  | some (.list items) => items
  | _ => []

/-- A node that carries a text: plain, under a kind or verbatim. -/
inductive Spells (text : String) : Tree → Prop
  | plain : Spells text (.text text)
  | typed (kind : Kind) : Spells text (.typed kind text)
  | verbatim : Spells text (.verbatim text)

theorem lookup?_map (entries : Entries Tree) (key : String) :
    (Tree.map entries).lookup? key = Entries.get? entries key := rfl

theorem items_array {ts : List Tree} (h : ts ≠ []) : (Tree.array ts).items = ts := by
  have hne : ts.isEmpty = false := by simpa using h
  simp [items, array, hne, lookup?, asEntries?, Entries.get?_cons, Marker.kind, Marker.item]

end Tree

/-- How a part of a value is written. -/
inductive Seat where
  /-- As a value of a schema, if one is known. -/
  | value (schema : Option Schema)
  /-- As the payload of an explicit case. -/
  | payload (type : Option ObjectType)
  /-- As bare text. -/
  | text

namespace Seat

variable (r : Registry)

/-- The case that a value of a variant names explicitly. -/
def explicitCase? (seat : Seat) (v : Value) : Option (String × Schema) :=
  match seat with
  | value schema =>
    match schema.map r.resolve with
    | some (.variant t) => Encoder.explicitCase? t v.fields
    | _ => none
  | _ => none

/-- The object type that fields are written under: that of the schema, of the payload, or of the
case that a variant implies. -/
def type? (seat : Seat) (v : Value) : Option ObjectType :=
  match seat with
  | value schema =>
    match schema.map r.resolve with
    | some (.object o) => some o
    | some (.variant t) =>
      if (Encoder.explicitCase? t v.fields).isSome then none
      else t.soleCase?.bind fun c => r.objectOf? c.2
    | _ => none
  | payload o => o
  | text => none

/-- A field of the value is written as its case. -/
def marksCase (seat : Seat) (v : Value) : Bool :=
  match seat with
  | value schema =>
    (plainType? (schema.map r.resolve)).any fun o => (untypedCase? v.fields o).isSome
  | _ => false

/-- The schema of the items of a list. -/
def itemSchema (seat : Seat) : Option Schema :=
  match seat with
  | value schema => (itemType? (schema.map r.resolve)).getD none
  | _ => none

end Seat

/-- A part of a value and the node that stands for it. -/
structure Site where
  seat : Seat
  value : Value
  node : Tree

namespace Site

section

variable (r : Registry)

/-- The site of a field or item: items stand in order, the payload of an explicit case in the same
node, a text field in the character data, and a field that keeps an untyped case in the marker. -/
def enter? (s : Site) (segment : String) : Option Site :=
  (s.value.step? segment).bind fun w =>
    match s.value with
    | .list _ =>
      (Value.readPosition? segment).bind fun i =>
        s.node.items[i]?.map fun node => ⟨.value (s.seat.itemSchema r), w, node⟩
    | _ =>
      match s.seat.explicitCase? r s.value with
      | some (_, schema) => some ⟨.payload (r.objectOf? schema), w, s.node⟩
      | none =>
        if Marker.isAttribute segment then
          (s.node.lookup? segment).map fun node => ⟨.text, w, node⟩
        else if segment = Marker.text then
          ((s.node.lookup? Marker.text).or (s.node.lookup? Marker.verbatim)).map fun node =>
            ⟨.text, w, node⟩
        else if s.seat.marksCase r s.value ∧ segment = Marker.untypedCase then
          (s.node.lookup? Marker.variant).map fun node => ⟨.text, w, node⟩
        else
          (s.node.lookup? segment).map fun node =>
            ⟨.value ((declared? (s.seat.type? r s.value) segment).map Field.schema), w, node⟩

/-- The site that a path leads to. -/
def follow? (s : Site) (path : List String) : Option Site := path.foldlM (enter? r) s

/-- A site right below another one: a part of the value, or a field filled in. -/
inductive Part : Site → Site → Prop
  | own {s s' : Site} {segment : String} (h : s.enter? r segment = some s') : Part s s'
  | filled {s : Site} {o : ObjectType} {name : String} {f : Field} {node : Tree}
      (ho : s.seat.type? r s.value = some o) (hf : (name, f) ∈ o.fields)
      (hopt : f.optional = false) (hnew : name ∉ s.value.fields.keys)
      (hn : s.node.lookup? name = some node) :
      Part s ⟨.value (some f.schema), r.synthesizeField f, node⟩

end

/-- The node is what the value is encoded as. -/
inductive Encoded (e : Encoder) : Site → Prop
  | value {schema : Option Schema} {v : Value} {verbatim : Bool} {path : Path} {t : Tree}
      (h : e.encode v schema verbatim path = .ok t) : Encoded e ⟨.value schema, v, t⟩
  | root {schema : Schema} {v : Value} {t : Tree} (h : e.encodeRoot v schema = .ok t) :
      Encoded e ⟨.value (some schema), v, t⟩
  | payload {o : Option ObjectType} {v : Value} {fields : Entries Value} {path : Path}
      {case : String} {entries : Entries Tree} (ho : ∀ t, o = some t → t.WellKeyed)
      (hv : objectFields? v = some fields) (hl : e.Lays o path false fields entries) :
      Encoded e ⟨.payload o, v, finishCase case entries⟩
  | text {v : Value} {text : String} (h : e.wireText? v = some text) :
      Encoded e ⟨.text, v, .text text⟩

/-- Entries stand in a node, with nothing around them but a case. -/
def Wraps (entries : Entries Tree) (node : Tree) : Prop :=
  ∃ before after : Entries Tree, node = .map (before ++ entries ++ after) ∧
    ∀ a ∈ before ++ after, a.1 = Marker.variant ∧ ∃ c, a.2 = .text c

theorem Wraps.self (entries : Entries Tree) : Wraps entries (.map entries) :=
  ⟨[], [], by simp, by simp⟩

theorem Wraps.cons (case : String) (entries : Entries Tree) :
    Wraps entries (.map ((Marker.variant, .text case) :: entries)) :=
  ⟨[(Marker.variant, .text case)], [], by simp, by simp⟩

theorem Wraps.append (case : String) (entries : Entries Tree) :
    Wraps entries (.map (entries ++ [(Marker.variant, .text case)])) :=
  ⟨[], [(Marker.variant, .text case)], by simp, by simp⟩

theorem Wraps.lookup? {entries : Entries Tree} {node : Tree} (h : Wraps entries node)
    {key : String} (hk : key ≠ Marker.variant) : node.lookup? key = Entries.get? entries key := by
  obtain ⟨before, after, rfl, hmarkers⟩ := h
  have hnone : ∀ es : Entries Tree, (∀ a ∈ es, a ∈ before ++ after) → Entries.get? es key = none := by
    intro es hes
    refine Entries.get?_eq_none_iff.2 fun hmem => ?_
    obtain ⟨t, ht⟩ := Entries.exists_of_mem_keys hmem
    exact hk (hmarkers _ (hes _ ht)).1
  rw [Tree.lookup?_map, Entries.get?_append, Entries.get?_append,
    hnone before (fun a ha => List.mem_append_left _ ha),
    hnone after (fun a ha => List.mem_append_right _ ha)]
  simp

variable {e : Encoder} {s : Site}

/-- Entries of an object, and its case if a field keeps one. -/
def Holds (marked : Bool) (fields : Entries Value) (entries : Entries Tree) (node : Tree) : Prop :=
  Wraps entries node ∧ (marked = true → ∃ case, (Marker.untypedCase, .string case) ∈ fields ∧
    node.lookup? Marker.variant = some (.text case))

/-- An object whose entries are all placeholders may stand for nothing. -/
def Collapses (marked : Bool) (entries : Entries Tree) (node : Tree) : Prop :=
  node = .null ∧ marked = false ∧ ∀ a ∈ entries, a.2.isPlaceholder = true

theorem holds_or_collapses {o : Option ObjectType} {path : Path} {fields : Entries Value}
    {entries : Entries Tree} (ho : ∀ t, o = some t → t.WellKeyed) (hd : fields.Distinct)
    (hl : e.Lays o path (untypedCase? fields o).isSome fields entries) (collapse : Bool) :
    Holds (untypedCase? fields o).isSome fields entries
        (finishObject (untypedCase? fields o) o collapse entries) ∨
      Collapses (untypedCase? fields o).isSome entries
        (finishObject (untypedCase? fields o) o collapse entries) := by
  cases hcase : untypedCase? fields o with
  | some case =>
    rw [hcase] at hl
    rw [finishObject_some ho hd hl]
    refine .inl ⟨.cons case entries, fun _ => ⟨case, (untypedCase?_eq_some hcase).1, ?_⟩⟩
    simp [Tree.lookup?_map, Entries.get?_cons]
  | none =>
    rw [hcase] at hl
    cases htag : o.bind ObjectType.tag with
    | some tag =>
      rw [finishObject_tag ho hl htag]
      exact .inl ⟨.append tag entries, by simp⟩
    | none =>
      rw [finishObject_none htag]
      split
      · next hall =>
        exact .inr ⟨rfl, rfl, fun a ha => List.all_eq_true.1 hall.2 a ha⟩
      · exact .inl ⟨.self entries, by simp⟩

theorem type?_wellKeyed {r : Registry} (hr : r.WellKeyed) {seat : Seat} {v : Value}
    (hp : ∀ o, seat = .payload (some o) → o.WellKeyed) (o : ObjectType)
    (ho : seat.type? r v = some o) : o.WellKeyed := by
  cases seat with
  | payload p =>
    cases ho
    exact hp o rfl
  | text => cases ho
  | value schema =>
    unfold Seat.type? at ho
    simp only at ho
    split at ho
    · next p hs =>
      obtain ⟨schema, -, hs⟩ := Option.map_eq_some_iff.1 hs
      exact Option.some.inj ho ▸ hr.of_resolve hs
    · split at ho
      · cases ho
      · obtain ⟨c, -, hc⟩ := Option.bind_eq_some_iff.1 ho
        exact hr.of_objectOf? hc
    · cases ho

theorem type?_of_plain {r : Registry} {schema : Option Schema} {o : Option ObjectType}
    (h : plainType? (schema.map r.resolve) = some o) (v : Value) :
    (Seat.value schema).type? r v = o ∧
      (Seat.value schema).marksCase r v = (untypedCase? v.fields o).isSome := by
  refine ⟨?_, by simp [Seat.marksCase, h]⟩
  unfold Seat.type?
  simp only
  generalize schema.map r.resolve = resolved at h
  match resolved with
  | none | some (.primitive .unknown) | some (.object _) => exact Option.some.inj h

/-- Where the entries of an object are in its node. -/
def Laid (e : Encoder) (s : Site) (fields : Entries Value) : Prop :=
  (s.node = .null ∧ fields = []) ∨
    ∃ path entries, e.Lays (s.seat.type? e.registry s.value) path
        (s.seat.marksCase e.registry s.value) fields entries ∧
      (Holds (s.seat.marksCase e.registry s.value) fields entries s.node ∨
        Collapses (s.seat.marksCase e.registry s.value) entries s.node)

theorem laid_plain (hr : e.registry.WellKeyed) {schema : Option Schema} {v : Value}
    {o : Option ObjectType} (hs : plainType? (schema.map e.registry.resolve) = some o)
    {fields : Entries Value} (hv : v.fields = fields) (hd : fields.Distinct) {path : Path}
    {entries : Entries Tree}
    (hl : e.Lays o path (untypedCase? fields o).isSome fields entries) (collapse : Bool) :
    Laid e ⟨.value schema, v, finishObject (untypedCase? fields o) o collapse entries⟩ fields := by
  obtain ⟨htype, hmarks⟩ := type?_of_plain hs v
  rw [hv] at hmarks
  have hseat : ∀ p, Seat.value schema = .payload (some p) → p.WellKeyed := by simp
  have ho : ∀ t, o = some t → t.WellKeyed := fun t ht =>
    type?_wellKeyed hr hseat t (htype.trans ht)
  refine .inr ⟨path, entries, ?_, ?_⟩
  · rw [htype, hmarks]
    exact hl
  · rw [hmarks]
    exact holds_or_collapses ho hd hl collapse

theorem laid_value (hr : e.registry.WellKeyed) {schema : Option Schema} {v : Value}
    {verbatim : Bool} {path : Path} {t : Tree} (h : e.encode v schema verbatim path = .ok t)
    {fields : Entries Value} (hv : objectFields? v = some fields) (hd : fields.Distinct)
    (hx : (Seat.value schema).explicitCase? e.registry v = none) :
    Laid e ⟨.value schema, v, t⟩ fields := by
  cases v with
  | null =>
    rw [encode] at h
    exact .inl ⟨(Except.ok.inj h).symm, (Option.some.inj hv).symm⟩
  | object fs =>
    cases hv
    have hshape := (encode_object_eq_ok_iff hr).1 h
    generalize hs : schema.map e.registry.resolve = resolved at hshape
    cases hshape with
    | plain ht hl => exact laid_plain hr (v := .object fields) (hs ▸ ht) rfl hd hl true
    | blank _ hf => exact .inl ⟨rfl, hf⟩
    | @explicit v case payload _ _ _ hc _ _ _ =>
      have hexplicit : (Seat.value schema).explicitCase? e.registry (.object fields) =
          some (case, payload) := by
        have hcase : Encoder.explicitCase? v (Value.object fields).fields = some (case, payload) := hc
        simp [Seat.explicitCase?, hs, hcase]
      cases hx.symm.trans hexplicit
    | @implied v case payload entries hf hc hsole hl =>
      have htype : (Seat.value schema).type? e.registry (.object fields) =
          e.registry.objectOf? payload := by
        have hnone : Encoder.explicitCase? v (Value.object fields).fields = none := hc
        simp [Seat.type?, hs, hnone, hsole]
      have hmarks : (Seat.value schema).marksCase e.registry (.object fields) = false := by
        simp [Seat.marksCase, hs, plainType?]
      have ho : ∀ t, e.registry.objectOf? payload = some t → t.WellKeyed :=
        fun t => hr.of_objectOf?
      refine .inr ⟨path, entries, ?_, .inl ⟨?_, ?_⟩⟩
      · rw [htype, hmarks]
        exact hl
      · rw [finishCase_eq ho hd hl]
        exact .cons case entries
      · rw [hmarks]
        simp
  | _ => cases hv

/-- The entries of an encoded object, wherever it stands. -/
theorem Encoded.laid (hr : e.registry.WellKeyed) (h : Encoded e s) {fields : Entries Value}
    (hv : objectFields? s.value = some fields) (hd : fields.Distinct)
    (hx : s.seat.explicitCase? e.registry s.value = none) : Laid e s fields := by
  cases h with
  | value h => exact laid_value hr h hv hd hx
  | root h =>
    cases (encodeRoot_eq_ok_iff hr).1 h with
    | body hv' ht hl =>
      cases hv.symm.trans hv'
      rw [← Option.map_some] at ht
      exact laid_plain hr ht (fields_eq_of_objectFields? hv) hd hl false
    | nested _ h => exact laid_value hr h hv hd hx
  | @payload o v fs path case entries ho hv' hl =>
    cases hv.symm.trans hv'
    refine .inr ⟨path, entries, hl, .inl ⟨?_, by simp [Seat.marksCase]⟩⟩
    rw [finishCase_eq ho hd hl]
    exact .cons case entries
  | text h => cases hv.symm.trans (objectFields?_eq_none h)

/-! ## Following a path -/

/-- A scalar or reference is spelt by its node, which is no placeholder. -/
theorem Encoded.spells (hr : e.registry.WellKeyed) (h : Encoded e s) {text : String}
    (ht : e.wireText? s.value = some text) :
    s.node.Spells text ∧ s.node.isPlaceholder = false := by
  have hvalue : ∀ {schema : Option Schema} {v : Value} {verbatim : Bool} {path : Path} {t : Tree},
      e.encode v schema verbatim path = .ok t → e.wireText? v = some text →
        t.Spells text ∧ t.isPlaceholder = false := by
    intro schema v verbatim path t h hv
    have hne : e.scalarTree verbatim v ≠ none := by
      cases v <;> simp_all [scalarTree, wireText?, Value.scalarText?]
    have hscalar := encode_scalar hne h
    cases v with
    | reference r =>
      cases hv
      cases hscalar
      exact ⟨.plain, rfl⟩
    | bool b =>
      cases hv
      cases hscalar
      exact ⟨.typed _, by cases b <;> rfl⟩
    | number n =>
      cases hv
      cases hscalar
      exact ⟨.plain, rfl⟩
    | string t =>
      cases hv
      cases hscalar
      unfold stringTree
      split
      · exact ⟨.verbatim, rfl⟩
      · split
        · exact ⟨.typed _, rfl⟩
        · exact ⟨.plain, rfl⟩
    | _ => cases hv
  cases h with
  | value h => exact hvalue h ht
  | root h =>
    exact hvalue (encode_of_encodeRoot hr (objectFields?_eq_none ht) h) ht
  | payload _ hv _ => cases hv.symm.trans (objectFields?_eq_none ht)
  | text h =>
    cases h.symm.trans ht
    exact ⟨.plain, rfl⟩

theorem enter?_list {r : Registry} {seat : Seat} {items : List Value} {node : Tree}
    {segment : String} {i : Nat} {v : Value} {t : Tree}
    (hi : Value.readPosition? segment = some i) (hv : items[i]? = some v)
    (ht : node.items[i]? = some t) :
    enter? r ⟨seat, .list items, node⟩ segment = some ⟨.value (seat.itemSchema r), v, t⟩ := by
  simp [enter?, Value.step?, hi, hv, ht]

/-- A list goes on to each of its items. -/
theorem Encoded.step_list (hr : e.registry.WellKeyed) {seat : Seat} {items : List Value}
    {node : Tree} (h : Encoded e ⟨seat, .list items, node⟩) {segment : String} {v : Value}
    (hs : (Value.list items).step? segment = some v) :
    ∃ s', enter? e.registry ⟨seat, .list items, node⟩ segment = some s' ∧ Encoded e s' ∧
      s'.value = v ∧ node.isPlaceholder = false := by
  obtain ⟨i, hi, hv⟩ := Option.bind_eq_some_iff.1 hs
  have hvalue : ∀ {schema : Option Schema} {verbatim : Bool} {path : Path},
      e.encode (.list items) schema verbatim path = .ok node →
      ∃ s', enter? e.registry ⟨.value schema, .list items, node⟩ segment = some s' ∧
        Encoded e s' ∧ s'.value = v ∧ node.isPlaceholder = false := by
    intro schema verbatim path h
    obtain ⟨item, ts, hitem, hts, rfl⟩ := encode_list_eq_ok_iff.1 h
    have hall := forall₂_of_encodeItems hts
    have hlt : i < items.length := (List.getElem?_eq_some_iff.1 hv).1
    have hlt' : i < ts.length := hall.length_eq ▸ hlt
    have hne : ts ≠ [] := List.ne_nil_of_length_pos (by omega)
    obtain ⟨p, ht⟩ := (List.forall₂_iff_get.1 hall).2 i hlt hlt'
    have hget : items.get ⟨i, hlt⟩ = v := Option.some.inj ((List.getElem?_eq_getElem hlt).symm.trans hv)
    rw [hget] at ht
    refine ⟨_, enter?_list hi hv (t := ts.get ⟨i, hlt'⟩) ?_, ?_, rfl, ?_⟩
    · rw [Tree.items_array hne]
      exact List.getElem?_eq_getElem hlt'
    · have hschema : (Seat.value schema).itemSchema e.registry = item := by
        simp [Seat.itemSchema, hitem]
      rw [hschema]
      exact .value ht
    · simpa [Tree.isPlaceholder_array] using hne
  cases h with
  | value h => exact hvalue h
  | root h =>
    exact hvalue (encode_of_encodeRoot hr rfl h)
  | payload _ hv' _ => cases hv'
  | text h => cases h

theorem Wraps.isPlaceholder {o : Option ObjectType} {path : Path} {skipCase : Bool}
    {fields : Entries Value} {entries : Entries Tree} {node : Tree}
    (ho : ∀ t, o = some t → t.WellKeyed) (hl : e.Lays o path skipCase fields entries)
    (h : Wraps entries node) : node.isPlaceholder = false := by
  have hkind : node.kindMarker? = (Entries.get? entries Marker.kind).bind Tree.asText? := by
    have hentry : node.lookup? Marker.kind = Entries.get? entries Marker.kind :=
      h.lookup? (by decide)
    obtain ⟨before, after, rfl, -⟩ := h
    rw [← hentry]
    rfl
  have hplain : (node.kindMarker?.any fun k => k == Kind.null.text || k == Kind.array.text) =
      false := by
    rw [hkind]
    cases hget : Entries.get? entries Marker.kind with
    | none => rfl
    | some t =>
      obtain ⟨text, rfl, hread⟩ := hl.kind ho (Entries.mem_of_get?_eq_some hget)
      have hne : ∀ k : Kind, text ≠ k.text := by
        rintro k rfl
        rw [Kind.read?_text] at hread
        cases hread
      simp [Tree.asText?, hne]
  rw [Tree.isPlaceholder, hplain, Bool.and_false]

theorem Encoded.wellKeyed (hr : e.registry.WellKeyed) (h : Encoded e s) (o : ObjectType)
    (ho : s.seat.type? e.registry s.value = some o) : o.WellKeyed := by
  refine type?_wellKeyed hr (fun p hp => ?_) o ho
  cases h with
  | payload hpayload _ _ =>
    cases hp
    exact hpayload p rfl
  | _ => cases hp

theorem enter?_explicit {r : Registry} {seat : Seat} {fields : Entries Value} {node : Tree}
    {case segment : String} {schema : Schema}
    (hx : seat.explicitCase? r (.object fields) = some (case, schema)) {v : Value}
    (hs : Entries.get? fields segment = some v) :
    enter? r ⟨seat, .object fields, node⟩ segment =
      some ⟨.payload (r.objectOf? schema), v, node⟩ := by
  simp [enter?, Value.step?, hs, hx]

theorem explicitCase?_plain {r : Registry} {schema : Option Schema} {o : Option ObjectType}
    (h : plainType? (schema.map r.resolve) = some o) (v : Value) :
    (Seat.value schema).explicitCase? r v = none := by
  simp only [Seat.explicitCase?]
  split
  · next t ht =>
    rw [ht] at h
    cases h
  · rfl

/-- The payload of an explicit case shares the node of its value. -/
theorem Encoded.step_explicit (hr : e.registry.WellKeyed) {seat : Seat} {fields : Entries Value}
    {node : Tree} (h : Encoded e ⟨seat, .object fields, node⟩) (hk : (Value.object fields).Keyed)
    {case segment : String} {schema : Schema}
    (hx : seat.explicitCase? e.registry (.object fields) = some (case, schema)) {v : Value}
    (hs : Entries.get? fields segment = some v) :
    ∃ s', enter? e.registry ⟨seat, .object fields, node⟩ segment = some s' ∧ Encoded e s' ∧
      s'.value = v ∧ node.isPlaceholder = false := by
  refine ⟨_, enter?_explicit hx hs, ?_⟩
  have hvalue : ∀ {own : Option Schema} {verbatim : Bool} {path : Path},
      seat = .value own → e.encode (.object fields) own verbatim path = .ok node →
      Encoded e ⟨.payload (e.registry.objectOf? schema), v, node⟩ ∧ v = v ∧
        node.isPlaceholder = false := by
    rintro own verbatim path rfl h
    have hshape := (encode_object_eq_ok_iff hr).1 h
    simp only [Seat.explicitCase?] at hx
    generalize hres : own.map e.registry.resolve = resolved at hshape hx
    cases hshape with
    | plain ht _ =>
      split at hx
      · cases ht
      · cases hx
    | blank _ hf =>
      subst hf
      cases hs
    | implied _ hc _ _ => cases hc.symm.trans hx
    | explicit hc hf hp hl =>
      obtain ⟨rfl, rfl⟩ := Prod.mk.inj (Option.some.inj (hc.symm.trans hx))
      subst hf
      have hv : v = _ := (Prod.mk.inj (List.mem_singleton.1 (Entries.mem_of_get?_eq_some hs))).2
      subst hv
      have ho : ∀ s t, e.registry.objectOf? s = some t → t.WellKeyed := fun s t => hr.of_objectOf?
      have hd := (hk.of_mem_fields (Entries.mem_of_get?_eq_some hs)).distinct_fields
      rw [fields_eq_of_objectFields? hp] at hd
      refine ⟨.payload (ho _) hp hl, rfl, ?_⟩
      rw [finishCase_eq (ho _) hd hl]
      exact (Wraps.cons _ _).isPlaceholder (ho _) hl
  cases h with
  | value h => exact hvalue rfl h
  | root h =>
    cases (encodeRoot_eq_ok_iff hr).1 h with
    | body _ ht _ =>
      rw [← Option.map_some] at ht
      cases hx.symm.trans (explicitCase?_plain ht _)
    | nested _ h => exact hvalue rfl h
  | payload _ _ _ => cases hx
  | text _ => cases hx

/-- The site of the marker that a field of the value is written as. -/
theorem enter?_marker {r : Registry} {seat : Seat} {fields : Entries Value} {node t : Tree}
    (hx : seat.explicitCase? r (.object fields) = none)
    (hm : seat.marksCase r (.object fields) = true) {v : Value}
    (hs : Entries.get? fields Marker.untypedCase = some v)
    (ht : node.lookup? Marker.variant = some t) :
    enter? r ⟨seat, .object fields, node⟩ Marker.untypedCase = some ⟨.text, v, t⟩ := by
  have hattribute : Marker.isAttribute Marker.untypedCase = false := by decide
  have htext : Marker.untypedCase ≠ Marker.text := by decide
  simp [enter?, Value.step?, hs, hx, hm, hattribute, htext, ht]

theorem enter?_attribute {r : Registry} {seat : Seat} {fields : Entries Value} {node t : Tree}
    (hx : seat.explicitCase? r (.object fields) = none) {key name : String}
    (hk : Marker.attributeName? key = some name) {v : Value} (hs : Entries.get? fields key = some v)
    (ht : node.lookup? key = some t) :
    enter? r ⟨seat, .object fields, node⟩ key = some ⟨.text, v, t⟩ := by
  have hattribute : Marker.isAttribute key = true := by simp [Marker.isAttribute, hk]
  simp [enter?, Value.step?, hs, hx, hattribute, ht]

theorem enter?_text {r : Registry} {seat : Seat} {fields : Entries Value} {node t : Tree}
    (hx : seat.explicitCase? r (.object fields) = none) {v : Value}
    (hs : Entries.get? fields Marker.text = some v)
    (ht : (node.lookup? Marker.text).or (node.lookup? Marker.verbatim) = some t) :
    enter? r ⟨seat, .object fields, node⟩ Marker.text = some ⟨.text, v, t⟩ := by
  have hattribute : Marker.isAttribute Marker.text = false := by decide
  simp [enter?, Value.step?, hs, hx, hattribute, ht]

theorem enter?_child {r : Registry} {seat : Seat} {fields : Entries Value} {node : Tree}
    (hx : seat.explicitCase? r (.object fields) = none) {key : String} (hk : IsFieldName key)
    (hm : ¬ (seat.marksCase r (.object fields) = true ∧ key = Marker.untypedCase)) {v : Value}
    (hs : Entries.get? fields key = some v) :
    enter? r ⟨seat, .object fields, node⟩ key = (node.lookup? key).map fun t =>
      ⟨.value ((declared? (seat.type? r (.object fields)) key).map Field.schema), v, t⟩ := by
  obtain ⟨hattribute, htext, -, -⟩ := isFieldName_iff.1 hk
  have hattribute : Marker.isAttribute key = false := by simp [Marker.isAttribute, hattribute]
  simp [enter?, Value.step?, hs, hx, hattribute, htext, hm]

theorem lookup?_null {key : String} (hk : IsFieldName key) : Tree.null.lookup? key = none := by
  have hne : Marker.kind ≠ key := fun he => absurd (he ▸ hk) (by decide)
  simp [Tree.null, Tree.lookup?_map, Entries.get?_cons, hne]

/-- A field of an object leads to its entry, unless the object collapsed together with it. -/
theorem Encoded.step_field (hr : e.registry.WellKeyed) {seat : Seat} {fields : Entries Value}
    {node : Tree} (h : Encoded e ⟨seat, .object fields, node⟩) (hd : fields.Distinct)
    (hx : seat.explicitCase? e.registry (.object fields) = none) {key : String} {v : Value}
    (hs : Entries.get? fields key = some v) :
    ∃ s', Encoded e s' ∧ s'.value = v ∧
      (enter? e.registry ⟨seat, .object fields, node⟩ key = some s' ∧ node.isPlaceholder = false ∨
        enter? e.registry ⟨seat, .object fields, node⟩ key = none ∧
          s'.node.isPlaceholder = true) := by
  have ho := h.wellKeyed hr
  have hmem := Entries.mem_of_get?_eq_some hs
  rcases h.laid hr rfl hd hx with ⟨-, hf⟩ | ⟨path, entries, hl, hnode⟩
  · subst hf
    cases hs
  dsimp only at ho hl hnode
  have hentries := hl.distinct ho hd
  by_cases hm : seat.marksCase e.registry (.object fields) = true ∧ key = Marker.untypedCase
  · obtain ⟨hm, rfl⟩ := hm
    rcases hnode with ⟨hw, hcase⟩ | ⟨-, hfalse, -⟩
    · obtain ⟨case, hcase, hentry⟩ := hcase hm
      cases ((Entries.get?_eq_some_iff hd).2 hcase).symm.trans hs
      exact ⟨⟨.text, .string case, .text case⟩, .text rfl, rfl,
        .inl ⟨enter?_marker hx hm hs hentry, hw.isPlaceholder ho hl⟩⟩
    · rw [hm] at hfalse
      cases hfalse
  · have hown : (key, v) ∈ ownFields (seat.marksCase e.registry (.object fields)) fields := by
      refine List.mem_filter.2 ⟨hmem, ?_⟩
      by_contra hc
      exact hm (by simpa using hc)
    obtain ⟨a, ha, hrel⟩ := hl.exists_entry hown
    have hget := (Entries.get?_eq_some_iff hentries).2 ha
    have hkept : a.2.isPlaceholder = false → Wraps entries node := by
      intro hplain
      rcases hnode with ⟨hw, -⟩ | ⟨-, -, hall⟩
      · exact hw
      · rw [hall a ha] at hplain
        cases hplain
    have hne := ne_of_isReserved Marker.variant (by decide) hrel.isReserved
    cases hrel with
    | attr hk ht _ =>
      have hw := hkept rfl
      exact ⟨⟨.text, v, _⟩, .text ht, rfl,
        .inl ⟨enter?_attribute hx hk hs ((hw.lookup? hne).trans hget), hw.isPlaceholder ho hl⟩⟩
    | text ht =>
      have hw := hkept rfl
      obtain ⟨htext, hverbatim⟩ := hl.get?_data ho hd hown ht
      refine ⟨⟨.text, v, _⟩, .text ht, rfl, .inl ⟨enter?_text hx hs ?_, hw.isPlaceholder ho hl⟩⟩
      rw [hw.lookup? (by decide), hw.lookup? (by decide), htext, hverbatim]
      split <;> rfl
    | child hk ht =>
      refine ⟨⟨.value _, v, _⟩, .value ht, rfl, ?_⟩
      rw [enter?_child hx hk hm hs]
      rcases hnode with ⟨hw, -⟩ | ⟨rfl, -, hall⟩
      · refine .inl ⟨?_, hw.isPlaceholder ho hl⟩
        rw [hw.lookup? hne, hget]
        rfl
      · refine .inr ⟨?_, hall _ ha⟩
        rw [lookup?_null hk]
        rfl

/-- A part of an encoded value is encoded; a node is a placeholder only together with all parts of
its value. -/
theorem Encoded.step (hr : e.registry.WellKeyed) (h : Encoded e s) (hk : s.value.Keyed)
    {segment : String} {v : Value} (hs : s.value.step? segment = some v) :
    ∃ s', Encoded e s' ∧ s'.value = v ∧
      (s.enter? e.registry segment = some s' ∧ s.node.isPlaceholder = false ∨
        s.enter? e.registry segment = none ∧ s'.node.isPlaceholder = true) := by
  obtain ⟨seat, value, node⟩ := s
  cases value with
  | list items =>
    obtain ⟨s', henter, hs', hv, hplain⟩ := h.step_list hr hs
    exact ⟨s', hs', hv, .inl ⟨henter, hplain⟩⟩
  | object fields =>
    cases hx : seat.explicitCase? e.registry (.object fields) with
    | none => exact h.step_field hr hk.distinct hx hs
    | some c =>
      obtain ⟨s', henter, hs', hv, hplain⟩ := h.step_explicit hr hk hx hs
      exact ⟨s', hs', hv, .inl ⟨henter, hplain⟩⟩
  | _ => cases hs

/-- The path to a scalar or reference leads to a node that spells it. -/
theorem Encoded.follow (hr : e.registry.WellKeyed) (h : Encoded e s) (hk : s.value.Keyed)
    {path : List String} {leaf : Value} {text : String}
    (hp : s.value.getPath? path = some leaf) (ht : e.wireText? leaf = some text) :
    (∃ s', s.follow? e.registry path = some s' ∧ s'.value = leaf ∧ s'.node.Spells text) ∧
      s.node.isPlaceholder = false := by
  induction path generalizing s with
  | nil =>
    have hleaf : s.value = leaf := Option.some.inj hp
    obtain ⟨hspells, hplain⟩ := h.spells hr (hleaf ▸ ht)
    exact ⟨⟨s, rfl, hleaf, hspells⟩, hplain⟩
  | cons segment rest ih =>
    obtain ⟨v, hv, hrest⟩ := Option.bind_eq_some_iff.1 hp
    obtain ⟨next, hnext, rfl, hcases⟩ := h.step hr hk hv
    obtain ⟨⟨s', hfollow, hleaf, hspells⟩, hplain⟩ := ih hnext (hk.step? hv) hrest
    rcases hcases with ⟨henter, hnode⟩ | ⟨-, hplaceholder⟩
    · refine ⟨⟨s', ?_, hleaf, hspells⟩, hnode⟩
      rw [follow?, List.foldlM_cons, henter]
      exact hfollow
    · rw [hplaceholder] at hplain
      cases hplain

/-! ## Fields of object types -/

/-- The node says nothing, is a reference, or has every field of the type that is not optional; its
other elements are the fields of the value and the case marker. -/
def Complete (c : Convention) (o : ObjectType) (s : Site) : Prop :=
  s.node = .null ∨ (∃ q, s.value = .reference q ∧ s.node = .text (c.render q)) ∨
    ∃ entries, s.node = .map entries ∧
      (∀ name f, (name, f) ∈ o.fields → f.optional = false → name ∈ Entries.keys entries) ∧
      ∀ key ∈ Entries.keys entries, Markup.isChild key = true →
        key ∈ s.value.fields.keys ∨ key = Marker.variant ∨
          ∃ f, (key, f) ∈ o.fields ∧ f.optional = false

theorem explicitCase?_of_type? {r : Registry} {seat : Seat} {v : Value} {o : ObjectType}
    (ho : seat.type? r v = some o) : seat.explicitCase? r v = none := by
  cases seat with
  | value schema =>
    simp only [Seat.type?, Seat.explicitCase?] at ho ⊢
    split
    · next t ht =>
      rw [ht] at ho
      simp only at ho
      split at ho
      · cases ho
      · next hnone => simpa using hnone
    · rfl
  | _ => rfl

theorem resolved_of_type? {r : Registry} {schema : Option Schema} {v : Value} {o : ObjectType}
    (ho : (Seat.value schema).type? r v = some o) :
    takesScalar (schema.map r.resolve) = false ∧ itemType? (schema.map r.resolve) = none := by
  simp only [Seat.type?] at ho
  split at ho
  · next t ht => exact ⟨by rw [ht]; rfl, by rw [ht]; rfl⟩
  · next t ht => exact ⟨by rw [ht]; rfl, by rw [ht]; rfl⟩
  · cases ho

/-- Under a type with fields only references are encoded beside objects. -/
theorem Encoded.reference_of_type? (hr : e.registry.WellKeyed) (h : Encoded e s) {o : ObjectType}
    (ho : s.seat.type? e.registry s.value = some o) (hv : objectFields? s.value = none) :
    ∃ q, s.value = .reference q ∧ s.node = .text (e.convention.render q) := by
  have hvalue : ∀ {schema : Option Schema} {v : Value} {verbatim : Bool} {path : Path} {t : Tree},
      (Seat.value schema).type? e.registry v = some o → objectFields? v = none →
      e.encode v schema verbatim path = .ok t →
        ∃ q, v = .reference q ∧ t = .text (e.convention.render q) := by
    intro schema v verbatim path t ho hv h
    obtain ⟨hscalar, hlist⟩ := resolved_of_type? ho
    cases v with
    | reference q =>
      rw [encode] at h
      exact ⟨q, rfl, (Except.ok.inj h).symm⟩
    | null => cases hv
    | object _ => cases hv
    | list items =>
      obtain ⟨item, _, hitem, -, -⟩ := encode_list_eq_ok_iff.1 h
      cases hlist.symm.trans hitem
    | _ =>
      rw [encode] at h
      obtain ⟨_, hfits, -⟩ := bind_eq_ok_iff.1 h
      cases hscalar.symm.trans (expectScalar_eq_ok_iff.1 hfits)
  cases h with
  | value h => exact hvalue ho hv h
  | root h =>
    exact hvalue ho hv (encode_of_encodeRoot hr hv h)
  | payload _ hv' _ => cases hv.symm.trans hv'
  | text _ => cases ho

theorem marksCase_declared {r : Registry} {seat : Seat} {v : Value}
    (h : seat.marksCase r v = true) : declared? (seat.type? r v) Marker.untypedCase = none := by
  cases seat with
  | value schema =>
    obtain ⟨o, ho, hcase⟩ := (Option.any_eq_true _ _).1 h
    rw [(type?_of_plain ho v).1]
    obtain ⟨case, hcase⟩ := Option.isSome_iff_exists.1 hcase
    exact (untypedCase?_eq_some hcase).2
  | payload _ => cases h
  | text => cases h

/-- An entry for each field of a type that is not optional. -/
theorem Lays.mem_keys {o : ObjectType} {path : Path} {skipCase : Bool} {fields : Entries Value}
    {entries : Entries Tree} (ho : o.WellKeyed) (hl : e.Lays (some o) path skipCase fields entries)
    (hskip : skipCase = true → o.field? Marker.untypedCase = none) {name : String} {f : Field}
    (hf : (name, f) ∈ o.fields) (hopt : f.optional = false) : name ∈ entries.keys := by
  by_cases hown : name ∈ fields.keys
  · obtain ⟨v, hv⟩ := Entries.exists_of_mem_keys hown
    have hmem : (name, v) ∈ ownFields skipCase fields := by
      refine List.mem_filter.2 ⟨hv, ?_⟩
      by_contra hc
      obtain ⟨hs, hn⟩ : skipCase = true ∧ name = Marker.untypedCase := by simpa using hc
      have hnone := Entries.get?_eq_none_iff.1 (hskip hs)
      exact hnone (hn ▸ Entries.mem_keys_of_mem hf)
    obtain ⟨a, ha, hrel⟩ := hl.exists_entry hmem
    have hkey : a.1 = name := by
      rcases hrel.key with hk | ⟨hk, -⟩
      · exact hk
      · have htext : name = Marker.text := hk
        exact absurd (htext ▸ ho.names name f hf) (by decide)
    exact hkey ▸ Entries.mem_keys_of_mem ha
  · obtain ⟨t, ht⟩ := hl.exists_filled (mem_missingFields.2 ⟨⟨o, rfl, hf⟩, hown, hopt⟩)
    exact Entries.mem_keys_of_mem ht

/-- Every element of an object type is complete. -/
theorem Encoded.complete (hr : e.registry.WellKeyed) (h : Encoded e s)
    (hd : s.value.fields.Distinct) {o : ObjectType}
    (ho : s.seat.type? e.registry s.value = some o) : Complete e.convention o s := by
  cases hv : objectFields? s.value with
  | none => exact .inr (.inl (h.reference_of_type? hr ho hv))
  | some fields =>
    have hfields := fields_eq_of_objectFields? hv
    rw [hfields] at hd
    rcases h.laid hr hv hd (explicitCase?_of_type? ho) with ⟨hnull, -⟩ | ⟨path, entries, hl, hnode⟩
    · exact .inl hnull
    rcases hnode with ⟨⟨before, after, hnode, hmarkers⟩, -⟩ | ⟨hnull, -, -⟩
    · have hdeclared : s.seat.marksCase e.registry s.value = true →
          declared? (s.seat.type? e.registry s.value) Marker.untypedCase = none :=
        marksCase_declared
      rw [ho] at hl hdeclared
      have hwell := h.wellKeyed hr o ho
      refine .inr (.inr ⟨_, hnode, fun name f hf hopt => ?_, fun key hk hchild => ?_⟩)
      · simp [Lays.mem_keys hwell hl hdeclared hf hopt]
      · rw [Entries.keys_append, Entries.keys_append, List.mem_append, List.mem_append,
          or_right_comm, ← List.mem_append, ← Entries.keys_append] at hk
        rcases hk with hk | hk
        · obtain ⟨t, ht⟩ := Entries.exists_of_mem_keys hk
          exact .inr (.inl (hmarkers _ ht).1)
        · rcases hl.key_of_mem hk with ⟨hown, -⟩ | hverbatim | hmissing
          · exact .inl (hfields ▸ hown)
          · exact absurd hverbatim (Tree.isChild_iff.1 hchild).2.2
          · obtain ⟨f, hf⟩ := Entries.exists_of_mem_keys hmissing
            obtain ⟨⟨t, ht, hft⟩, -, hopt⟩ := mem_missingFields.1 hf
            cases ht
            exact .inr (.inr ⟨f, hft, hopt⟩)
    · exact .inl hnull

/-! ## Parts of parts -/

/-- The encoder for fields that at most `chain` defaults may follow. -/
def chainEncoder (r : Registry) (c : Convention) (chain : Nat) : Encoder :=
  ⟨r, c, fillField r c chain⟩

variable {r : Registry} {c : Convention} {chain : Nat} {s' : Site}

theorem Encoded.own (hr : r.WellKeyed) (h : Encoded (chainEncoder r c chain) s)
    (hk : s.value.Keyed) {segment : String} (henter : s.enter? r segment = some s') :
    Encoded (chainEncoder r c chain) s' ∧ s'.value.Keyed := by
  obtain ⟨v, hv, -⟩ := Option.bind_eq_some_iff.1 henter
  obtain ⟨next, hnext, rfl, ⟨hcases, -⟩ | ⟨hcases, -⟩⟩ := h.step hr hk hv
  · cases henter.symm.trans hcases
    exact ⟨hnext, hk.step? hv⟩
  · cases henter.symm.trans hcases

/-- A field that has been filled in is an encoded default. -/
theorem Encoded.filled (hr : r.WellKeyed) (h : Encoded (chainEncoder r c chain) s)
    (hd : s.value.fields.Distinct) {o : ObjectType} (ho : s.seat.type? r s.value = some o)
    {name : String} {f : Field} (hf : (name, f) ∈ o.fields) (hnew : name ∉ s.value.fields.keys)
    {node : Tree} (hn : s.node.lookup? name = some node) :
    ∃ chain', Encoded (chainEncoder r c chain')
      ⟨.value (some f.schema), r.synthesizeField f, node⟩ := by
  have hwell : o.WellKeyed := h.wellKeyed hr o ho
  have hname := hwell.names name f hf
  cases hv : objectFields? s.value with
  | none =>
    obtain ⟨q, -, hnode⟩ := h.reference_of_type? hr ho hv
    rw [hnode] at hn
    cases hn
  | some fields =>
    have hfields := fields_eq_of_objectFields? hv
    rw [hfields] at hd hnew
    rcases h.laid hr hv hd (explicitCase?_of_type? ho) with ⟨hnull, -⟩ | ⟨path, entries, hl, hnode⟩
    · rw [hnull, lookup?_null hname] at hn
      cases hn
    rcases hnode with ⟨hw, -⟩ | ⟨hnull, -, -⟩
    · have hne := ne_of_isReserved Marker.variant (by decide) hname.2
      rw [hw.lookup? hne] at hn
      rcases hl.cases_mem (Entries.mem_of_get?_eq_some hn) with ⟨g, hg, hrel⟩ | ⟨g, hg, hkey, hfill⟩
      · rcases hrel.key with hk | ⟨-, hk⟩
        · have hk : name = g.1 := hk
          exact absurd (hk ▸ Entries.mem_keys_of_mem (List.mem_of_mem_filter hg)) hnew
        · have hk : name = Marker.verbatim := hk
          exact absurd (hk ▸ hname) (by decide)
      · obtain ⟨⟨t, ht, hgt⟩, -, -⟩ := mem_missingFields.1 hg
        cases ho.symm.trans ht
        have hk : name = g.1 := hkey
        have hfg : g.2 = f := by
          have hget := (Entries.get?_eq_some_iff hwell.distinct).2 (show (g.1, g.2) ∈ _ from hgt)
          rw [← hk, (Entries.get?_eq_some_iff hwell.distinct).2 hf] at hget
          exact (Option.some.inj hget).symm
        rw [hfg] at hfill
        cases chain with
        | zero => cases hfill
        | succ chain => exact ⟨chain, .value hfill⟩
    · rw [hnull, lookup?_null hname] at hn
      cases hn

/-- Every part of an encoded value is encoded, defaults included. -/
theorem encoded_of_reachable (hr : r.WellKeyed) (h : Encoded (chainEncoder r c chain) s)
    (hk : s.value.Keyed) (hs : Relation.ReflTransGen (Part r) s s') :
    (∃ chain', Encoded (chainEncoder r c chain') s') ∧ s'.value.Keyed := by
  induction hs with
  | refl => exact ⟨⟨chain, h⟩, hk⟩
  | tail _ hpart ih =>
    obtain ⟨⟨chain', h⟩, hk⟩ := ih
    cases hpart with
    | own henter =>
      obtain ⟨hnext, hkeyed⟩ := h.own hr hk henter
      exact ⟨⟨chain', hnext⟩, hkeyed⟩
    | filled ho hf hopt hnew hn =>
      exact ⟨h.filled hr hk.distinct_fields ho hf hnew hn,
        hr.synthesizeField (h.wellKeyed hr _ ho) hf⟩

end Site

/-- The tree of a definition keeps every scalar and reference of its value at its place, and leaves
out no field of an object type that is not optional. -/
theorem Profile.encodeTree_complete (p : Profile) (hr : p.registry.WellKeyed) {kind : String}
    {v : Value} (hk : v.Keyed) {document : Tree} (h : p.encodeTree kind v = .ok document) :
    ∃ schema root, p.registry.schemaFor? kind = some schema ∧
      document = .map [(Marker.root, root)] ∧
      (∀ path leaf text, v.getPath? path = some leaf →
        (ofRegistry p.registry p.convention).wireText? leaf = some text →
        ∃ s, Site.follow? p.registry ⟨.value (some schema), v, root⟩ path = some s ∧
          s.value = leaf ∧ s.node.Spells text) ∧
      ∀ s, Relation.ReflTransGen (Site.Part p.registry) ⟨.value (some schema), v, root⟩ s →
        ∀ o, s.seat.type? p.registry s.value = some o → Site.Complete p.convention o s := by
  unfold Profile.encodeTree at h
  cases hschema : p.registry.schemaFor? kind with
  | none =>
    rw [hschema] at h
    cases h
  | some schema =>
    rw [hschema] at h
    obtain ⟨root, hroot, hdocument⟩ := bind_eq_ok_iff.1 h
    have hencoded : Site.Encoded (ofRegistry p.registry p.convention)
        ⟨.value (some schema), v, root⟩ := .root hroot
    refine ⟨schema, root, rfl, (pure_eq_ok_iff.1 hdocument).symm, fun path leaf text hp ht => ?_,
      fun s hs o ho => ?_⟩
    · exact (hencoded.follow hr hk hp ht).1
    · obtain ⟨⟨chain, hchain⟩, hkeyed⟩ := Site.encoded_of_reachable hr hencoded hk hs
      exact hchain.complete hr hkeyed.distinct_fields ho

theorem Profile.encodeTree_complete_column :
    ∃ document schema root s,
      ({} : Profile).encodeTree "dataset" (.object [("#text", .string " a "), ("name", .null),
        ("columns", .list [.object [("field", .object [("fieldReference", .object [
          ("id", .string "12"), ("n", .bool true)])])]])]) = .ok document ∧
      Analytics.registry.schemaFor? "dataset" = some schema ∧
      document = .map [(Marker.root, root)] ∧
      Site.follow? Analytics.registry ⟨.value (some schema), .object [("#text", .string " a "),
        ("name", .null), ("columns", .list [.object [("field", .object [("fieldReference", .object [
          ("id", .string "12"), ("n", .bool true)])])]])], root⟩
        ["columns", "0", "field", "fieldReference", "n"] = some s ∧ s.node.Spells "true" := by
  obtain ⟨document, hdocument⟩ : ∃ document,
      ({} : Profile).encodeTree "dataset" (.object [("#text", .string " a "), ("name", .null),
        ("columns", .list [.object [("field", .object [("fieldReference", .object [
          ("id", .string "12"), ("n", .bool true)])])]])]) = .ok document := ⟨_, rfl⟩
  obtain ⟨schema, root, hschema, hroot, hleaf, -⟩ := Profile.encodeTree_complete {}
    Analytics.registry_wellKeyed (Value.keyed_of_isKeyed _ (by decide)) hdocument
  obtain ⟨s, hs, -, hspells⟩ :=
    hleaf ["columns", "0", "field", "fieldReference", "n"] (.bool true) "true" rfl rfl
  exact ⟨document, schema, root, s, hdocument, hschema, hroot, hs, hspells⟩

end TaggedMarkup
