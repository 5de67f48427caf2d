import TaggedMarkup.Proofs.Encoding.Faults
import TaggedMarkup.Proofs.Inside
import TaggedMarkup.Proofs.Path
import TaggedMarkup.Proofs.Registry.WellFormed
/-!
# Where a value does not fit

A mismatch is reported at a part of the value, under a path that can be read from its text. Nothing
is wrong any more at that place, or inside it, once the part is replaced by a null: an error that is
left is about another part.
-/
namespace TaggedMarkup

/-! ## Replacing a part -/

namespace Entries

variable {α : Type}

/-- Changes what stands under a key. -/
def modify (es : Entries α) (key : String) (f : α → α) : Entries α :=
  es.map fun e => if e.1 = key then (e.1, f e.2) else e

variable {es : Entries α} {key : String} {f : α → α}

@[simp] theorem keys_modify : keys (modify es key f) = keys es := by
  rw [keys, modify, List.map_map]
  refine List.map_congr_left fun e _ => ?_
  by_cases h : e.1 = key <;> simp [h]

theorem get?_modify (k : String) :
    get? (modify es key f) k = if k = key then (get? es k).map f else get? es k := by
  induction es with
  | nil => simp [modify]
  | cons e rest ih =>
    obtain ⟨k', a⟩ := e
    rw [modify] at ih
    by_cases hk' : k' = key
    · subst hk'
      by_cases hk : k' = k
      · simp [modify, get?_cons, hk]
      · simp [modify, get?_cons, hk, Ne.symm hk, ih]
    · by_cases hk : k' = k
      · subst hk
        simp [modify, get?_cons, hk']
      · simp [modify, get?_cons, hk, hk', ih]

theorem mem_modify {k : String} {b : α} (h : (k, b) ∈ modify es key f) :
    (k = key ∧ ∃ a, (key, a) ∈ es ∧ b = f a) ∨ k ≠ key ∧ (k, b) ∈ es := by
  obtain ⟨⟨k', a⟩, hm, he⟩ := List.mem_map.1 h
  by_cases hk : k' = key
  · subst hk
    rw [if_pos rfl] at he
    obtain ⟨rfl, rfl⟩ := Prod.mk.inj he
    exact .inl ⟨rfl, a, hm, rfl⟩
  · rw [if_neg hk] at he
    obtain ⟨rfl, rfl⟩ := Prod.mk.inj he
    exact .inr ⟨hk, hm⟩

end Entries

namespace Value

/-- Changes the field or item that one segment of a path leads to. -/
def modifyStep (segment : String) (f : Value → Value) : Value → Value
  | object fields => object (Entries.modify fields segment f)
  | list items => list ((readPosition? segment).elim items fun i => items.modify i f)
  | v => v

/-- A value with another in the place that a path leads to. -/
def replaceAt (v : Value) (segments : List String) (new : Value) : Value :=
  segments.foldr modifyStep (fun _ => new) v

variable {v w : Value}

theorem replaceAt_nil (v new : Value) : v.replaceAt [] new = new := rfl

theorem replaceAt_cons (v : Value) (segment : String) (rest : List String) (new : Value) :
    v.replaceAt (segment :: rest) new = v.modifyStep segment fun w => w.replaceAt rest new := rfl

theorem step?_modifyStep {segment : String} (f : Value → Value) (h : v.step? segment = some w) :
    (v.modifyStep segment f).step? segment = some (f w) := by
  cases v with
  | object fields =>
    have hget : Entries.get? fields segment = some w := h
    rw [modifyStep, step?, Entries.get?_modify, if_pos rfl, hget]
    rfl
  | list items =>
    obtain ⟨i, hi, hw⟩ := Option.bind_eq_some_iff.1 h
    rw [modifyStep, step?, hi]
    simp [hw]
  | _ => cases h

/-- The replacement is found where it was put. -/
theorem getPath?_replaceAt {segments : List String} (new : Value)
    (h : v.getPath? segments = some w) :
    (v.replaceAt segments new).getPath? segments = some new := by
  induction segments generalizing v with
  | nil => rfl
  | cons s rest ih =>
    rw [getPath?_cons, Option.bind_eq_some_iff] at h
    obtain ⟨u, hu, hw⟩ := h
    rw [replaceAt_cons, getPath?_cons, step?_modifyStep _ hu]
    exact ih hw

/-- Nothing becomes a string by losing a part. -/
theorem asString?_replaceAt (h : v.asString? = none) (segments : List String) :
    (v.replaceAt segments .null).asString? = none := by
  cases segments with
  | nil => rfl
  | cons s rest =>
    cases v with
    | string t => cases h
    | _ => rfl

end Value

namespace Encoder

variable {e : Encoder} {r : Registry} {c : Convention} {fault : Value → Option EncodeError}
  {path : Path} {v : Value} {fields : Entries Value} {o : Option ObjectType}
  {schema : Option Schema} {verbatim : Bool}

/-! ## Errors and the places they name -/

/-- An error is a mismatch at a place under a path. -/
def IsAt (path : Path) (segments : List String) (err : EncodeError) : Prop :=
  ∃ reason, err = .mismatch ⟨path.segments ++ segments⟩ reason

theorem isAt_nil {reason : Mismatch} : IsAt path [] (.mismatch path reason) :=
  ⟨reason, by rw [List.append_nil]⟩

theorem isAt_child {segment : String} {rest : List String} {err : EncodeError} :
    IsAt (path.child segment) rest err ↔ IsAt path (segment :: rest) err := by
  simp only [IsAt, Path.child_segments, List.append_assoc, List.singleton_append]

/-- An error is a mismatch at a place that segments do not lead to, nor to anything around it. -/
def IsElsewhere (path : Path) (segments : List String) (err : EncodeError) : Prop :=
  ∃ other, IsAt path other err ∧ ¬ segments <+: other

theorem isElsewhere_self {segment : String} {rest : List String} {reason : Mismatch} :
    IsElsewhere path (segment :: rest) (.mismatch path reason) := ⟨[], isAt_nil, by simp⟩

theorem IsElsewhere.of_child {segment : String} {rest : List String} {err : EncodeError}
    (h : IsElsewhere (path.child segment) rest err) : IsElsewhere path (segment :: rest) err := by
  obtain ⟨other, hat, hnot⟩ := h
  exact ⟨segment :: other, isAt_child.1 hat, fun hp => hnot (List.cons_prefix_cons.1 hp).2⟩

/-- Segments lead to what is wrong in a value: to a part of it, under a text that can be read, where
nothing is wrong any more once it is a null. What is wrong with a value at the path is its fault. -/
structure Locates (fault : Value → Option EncodeError) (path : Path) (v : Value)
    (segments : List String) : Prop where
  part : ∃ w, v.getPath? segments = some w
  readable : ∀ s ∈ segments, Path.IsSegment s
  elsewhere : ∀ err, fault (v.replaceAt segments .null) = some err → IsElsewhere path segments err

/-- Whatever is wrong with a value is reported where it is. -/
def Located (fault : Value → Option EncodeError) (path : Path) (v : Value) : Prop :=
  ∀ err, fault v = some err → ∃ segments, IsAt path segments err ∧ Locates fault path v segments

/-- A null is never wrong, so an error about the whole value goes away with it. -/
theorem locates_nil (hnull : fault .null = none) : Locates fault path v [] where
  part := ⟨v, rfl⟩
  readable := by simp
  elsewhere := fun err herr => by
    rw [Value.replaceAt_nil, hnull] at herr
    cases herr

/-- What is wrong in a field or item is wrong in what holds it. -/
theorem Locates.descend {inner : Value → Option EncodeError} {segment : String}
    {rest : List String} {w : Value} (h : Locates inner (path.child segment) w rest)
    (hsegment : Path.IsSegment segment) (hstep : v.step? segment = some w)
    (helsewhere : ∀ err, fault (v.modifyStep segment fun w => w.replaceAt rest .null) = some err →
      IsElsewhere path (segment :: rest) err) : Locates fault path v (segment :: rest) where
  part := by
    obtain ⟨u, hu⟩ := h.part
    exact ⟨u, by rw [Value.getPath?_cons, hstep, Option.bind_some, hu]⟩
  readable := List.forall_mem_cons.2 ⟨hsegment, h.readable⟩
  elsewhere := helsewhere

/-- Another field or item is another place. -/
theorem Located.isElsewhere {inner : Value → Option EncodeError} {segment other : String}
    {rest : List String} {w : Value} {err : EncodeError}
    (h : Located inner (path.child other) w) (hne : segment ≠ other) (herr : inner w = some err) :
    IsElsewhere path (segment :: rest) err := by
  obtain ⟨segments, hat, -⟩ := h err herr
  exact ⟨other :: segments, isAt_child.1 hat, fun hp => hne (List.cons_prefix_cons.1 hp).1⟩

/-- A value that nothing is wrong with but the whole of it. -/
theorem located_self (hnull : fault .null = none)
    (h : fault v = none ∨ ∃ reason, fault v = some (.mismatch path reason)) :
    Located fault path v := by
  intro err herr
  obtain hnone | ⟨reason, hreason⟩ := h
  · cases hnone.symm.trans herr
  · obtain rfl := Option.some.inj (hreason.symm.trans herr)
    exact ⟨[], isAt_nil, locates_nil hnull⟩

/-! ## Objects -/

/-- The case of an object stays as it is when a part of another field is replaced. -/
theorem isSome_untypedCase?_modify {untyped : Bool} {key : String} {rest : List String}
    (hd : fields.Distinct) (hv : (key, v) ∈ fields)
    (h : (untyped && (untypedCase? fields o).isSome) = true → key ≠ Marker.untypedCase) :
    (untyped && (untypedCase? (fields.modify key fun w => w.replaceAt rest .null) o).isSome) =
      (untyped && (untypedCase? fields o).isSome) := by
  cases untyped with
  | false => rfl
  | true =>
    rw [Bool.true_and] at h ⊢
    rw [Bool.true_and]
    unfold untypedCase? at h ⊢
    split
    · rfl
    · next hdeclared =>
      rw [if_neg hdeclared] at h
      by_cases hkey : key = Marker.untypedCase
      · subst hkey
        have hget : Entries.get? fields Marker.untypedCase = some v :=
          (Entries.get?_eq_some_iff hd).2 hv
        rw [hget, Option.bind_some] at h
        have hstring : v.asString? = none := by
          cases hs : v.asString? with
          | none => rfl
          | some t => exact absurd rfl (h (by rw [hs]; rfl))
        rw [Entries.get?_modify, if_pos rfl, hget]
        simp [hstring, Value.asString?_replaceAt hstring]
      · rw [Entries.get?_modify, if_neg (Ne.symm hkey)]

/-- What is left once a part of a field is replaced is wrong elsewhere. -/
theorem elsewhere_of_modify {skipCase : Bool} {key : String} {rest : List String}
    (hd : fields.Distinct) (hv : (key, v) ∈ fields)
    (hfield : Locates (e.fieldFault o path key) (path.child key) v rest)
    (each : ∀ key v, (key, v) ∈ fields → IsFieldName key →
      Located (e.fieldFault o path key) (path.child key) v) {err : EncodeError}
    (h : e.fieldsFault o skipCase path (fields.modify key fun w => w.replaceAt rest .null) =
      some err) : IsElsewhere path (key :: rest) err := by
  obtain ⟨⟨k, w⟩, hw, hentry⟩ := List.exists_of_findSome?_eq_some h
  rcases fault?_encodeEntry hentry with ⟨reason, rfl⟩ | ⟨hname, hfault⟩
  · exact isElsewhere_self
  rcases Entries.mem_modify (mem_ownFields.1 hw).1 with ⟨rfl, u, hu, rfl⟩ | ⟨hk, hw⟩
  · obtain rfl : u = v := Option.some.inj
      (((Entries.get?_eq_some_iff hd).2 hu).symm.trans ((Entries.get?_eq_some_iff hd).2 hv))
    exact (hfield.elsewhere err hfault).of_child
  · exact (each k w hw hname).isElsewhere (Ne.symm hk) hfault

/-- An object is wrong where one of its fields is, if nothing else can be wrong with it. Some
objects keep an untyped case in a field, which is not encoded as one. -/
theorem located_object (untyped : Bool) (hd : fields.Distinct) (hnull : fault .null = none)
    (hobject : ∀ fs : Entries Value, fs.keys = fields.keys → fault (.object fs) =
      e.fieldsFault o (untyped && (untypedCase? fs o).isSome) path fs)
    (each : ∀ key v, (key, v) ∈ fields → IsFieldName key →
      Located (e.fieldFault o path key) (path.child key) v) :
    Located fault path (.object fields) := by
  intro err herr
  rw [hobject fields rfl] at herr
  obtain ⟨⟨key, v⟩, hf, hentry⟩ := List.exists_of_findSome?_eq_some herr
  obtain ⟨hv, hskip⟩ := mem_ownFields.1 hf
  rcases fault?_encodeEntry hentry with ⟨reason, rfl⟩ | ⟨hname, hfault⟩
  · exact ⟨[], isAt_nil, locates_nil hnull⟩
  obtain ⟨rest, hat, hfield⟩ := each key v hv hname err hfault
  refine ⟨key :: rest, isAt_child.1 hat, hfield.descend (Path.isSegment_of_isElementName hname.1)
    ((Entries.get?_eq_some_iff hd).2 hv) fun err' herr' => ?_⟩
  rw [Value.modifyStep, hobject _ Entries.keys_modify,
    isSome_untypedCase?_modify hd hv hskip] at herr'
  exact elsewhere_of_modify hd hv hfield each herr'

/-- The only field of an object is wrong where its value is, if the object is. -/
theorem located_singleton {key : String} {payload : Value} {inner : Value → Option EncodeError}
    (hkey : Path.IsSegment key) (hobject : ∀ w, fault (.object [(key, w)]) = inner w)
    (h : Located inner (path.child key) payload) :
    Located fault path (.object [(key, payload)]) := by
  intro err herr
  rw [hobject] at herr
  obtain ⟨rest, hat, hpayload⟩ := h err herr
  refine ⟨key :: rest, isAt_child.1 hat, hpayload.descend hkey (if_pos rfl) fun err' herr' => ?_⟩
  have hreplaced : (Value.object [(key, payload)]).modifyStep key
      (fun w => w.replaceAt rest .null) = .object [(key, payload.replaceAt rest .null)] := by
    simp [Value.modifyStep, Entries.modify]
  rw [hreplaced, hobject] at herr'
  exact (hpayload.elsewhere err' herr').of_child

/-! ## Lists -/

/-- A list is wrong where one of its items is. -/
theorem located_list {items : List Value} {item : Path → Value → Option EncodeError}
    (hlist : ∀ vs, fault (.list vs) =
      vs.zipIdx.findSome? fun v => item (path.child (toString v.2)) v.1)
    (each : ∀ v ∈ items, ∀ path, Located (item path) path v) :
    Located fault path (.list items) := by
  intro err herr
  rw [hlist] at herr
  obtain ⟨⟨v, i⟩, hv, hfault⟩ := List.exists_of_findSome?_eq_some herr
  rw [List.mem_zipIdx_iff_getElem?] at hv
  obtain ⟨rest, hat, hitem⟩ := each v (List.mem_of_getElem? hv) _ err hfault
  have hstep : (Value.list items).step? (toString i) = some v := by
    rw [Value.step?, Value.readPosition?_toString, Option.bind_some, hv]
  refine ⟨toString i :: rest, isAt_child.1 hat,
    hitem.descend (Path.isSegment_toString i) hstep fun err' herr' => ?_⟩
  rw [Value.modifyStep, Value.readPosition?_toString, Option.elim_some, hlist] at herr'
  obtain ⟨⟨w, j⟩, hw, hfault'⟩ := List.exists_of_findSome?_eq_some herr'
  rw [List.mem_zipIdx_iff_getElem?, List.getElem?_modify] at hw
  by_cases hij : i = j
  · subst hij
    simp only [hv, if_true, Option.map_eq_map, Option.map_some, Option.some.injEq] at hw
    subst hw
    exact (hitem.elsewhere err' hfault').of_child
  · simp only [hij, if_false, Option.map_eq_map, Option.map_id'] at hw
    exact (each w (List.mem_of_getElem? hw) _).isElsewhere
      (fun heq => hij (Value.position_inj heq)) hfault'

/-! ## Values -/

/-- Every case of a variant has the name of an element. -/
def NamesCases (r : Registry) : Prop :=
  ∀ t, .variant t ∈ r.types → ∀ case s, (case, s) ∈ t.cases → IsFieldName case

/-- The payload of a case is an object or a null. -/
theorem located_payload {payload : Value} (hk : payload.Keyed)
    (each : ∀ inner, payload = .object inner → ∀ key v, (key, v) ∈ inner → IsFieldName key →
      Located (e.fieldFault o path key) (path.child key) v) :
    Located (fun w => (objectFields? w).elim
      (some (.mismatch path (.payloadNotObject w.kindName))) (e.fieldsFault o false path)) path
      payload := by
  cases payload with
  | object inner => exact located_object false hk.distinct rfl (fun _ _ => rfl) (each inner rfl)
  | null => exact located_self rfl (.inl rfl)
  | _ => exact located_self rfl (.inr ⟨_, rfl⟩)

section

variable (hr : r.WellKeyed) (hcases : NamesCases r) (hlit : EncodesLiterals r c)

include hr hcases hlit

theorem located_variant {t : VariantType} (ht : schema.map r.resolve = some (.variant t))
    (hk : (Value.object fields).Keyed)
    (ih : ∀ w : Value, w.depth < (Value.object fields).depth → w.Keyed → ∀ schema verbatim path,
      Located (fun w => fault? ((ofRegistry r c).encode w schema verbatim path)) path w) :
    Located (fun w => fault? ((ofRegistry r c).encode w schema verbatim path)) path
      (.object fields) := by
  by_cases hne : fields = []
  · subst hne
    exact located_self rfl (.inl (congrArg fault? (encode_variant_nil (e := ofRegistry r c) ht)))
  cases hexplicit : explicitCase? t fields with
  | some case =>
    obtain ⟨hinline, hcase, payload, rfl⟩ := explicitCase?_eq_some_iff.1 hexplicit
    have hpayload : payload.Keyed := hk.of_mem_fields (List.mem_singleton_self _)
    have hmem : TypeDef.variant t ∈ r.types := by
      obtain ⟨s, rfl, hs⟩ := Option.map_eq_some_iff.1 ht
      exact Registry.mem_types_of_resolve_variant hs
    have hname := hcases t hmem case.1 case.2 (Entries.mem_of_get?_eq_some hcase)
    refine located_singleton (Path.isSegment_of_isElementName hname.1)
      (fault?_payload hr hlit ht hinline hcase) (located_payload hpayload ?_)
    rintro inner rfl key v hv -
    refine ih v ((Value.depth_lt_of_mem_fields hv).trans ?_) (hpayload.of_mem_fields hv) _ _ _
    exact Value.depth_lt_of_mem_fields (List.mem_singleton_self _)
  | none =>
    cases hsole : t.soleCase? with
    | some case =>
      refine located_object (o := r.objectOf? case.2) false hk.distinct rfl (fun fs hkeys => ?_)
        fun key v hv _ => ih v (Value.depth_lt_of_mem_fields hv) (hk.of_mem_fields hv) _ _ _
      have hne' : fs ≠ [] := fun hnil => hne (by simpa [Entries.keys, hnil] using hkeys)
      exact fault?_sole hr hlit ht hne' (explicitCase?_of_keys_eq t hkeys ▸ hexplicit) hsole
    | none =>
      exact located_self rfl (.inr (fault?_caseless (e := ofRegistry r c) ht hne hexplicit hsole))

/-- What is wrong with a value is reported where it is. The induction is on how deep the value is
nested: the fields of a payload are two levels down. -/
theorem located_encode (hk : v.Keyed) :
    Located (fun w => fault? ((ofRegistry r c).encode w schema verbatim path)) path v := by
  induction hn : v.depth using Nat.strong_induction_on generalizing v schema verbatim path with
  | _ n ih =>
    subst hn
    have hinner : ∀ w : Value, w.depth < v.depth → w.Keyed → ∀ schema verbatim path,
        Located (fun w => fault? ((ofRegistry r c).encode w schema verbatim path)) path w :=
      fun w hw hkeyed _ _ _ => ih w.depth hw hkeyed rfl
    cases v with
    | object fields =>
      cases hplain : plainType? (schema.map r.resolve) with
      | some o =>
        exact located_object true hk.distinct rfl (fun _ _ => fault?_plain hr hlit hplain)
          fun key v hv _ => hinner v (Value.depth_lt_of_mem_fields hv) (hk.of_mem_fields hv) _ _ _
      | none =>
        by_cases hvariant : ∃ t, schema.map r.resolve = some (.variant t)
        · obtain ⟨t, ht⟩ := hvariant
          exact located_variant hr hcases hlit ht hk hinner
        · exact located_self rfl (fault?_misplaced (e := ofRegistry r c) hplain hvariant)
    | list items =>
      cases hitem : itemType? (schema.map r.resolve) with
      | some item =>
        exact located_list (fun vs => fault?_list (e := ofRegistry r c) hitem)
          fun w hw path => hinner w (Value.depth_lt_of_mem_items hw) (hk.of_mem_items hw) _ _ path
      | none => exact located_self rfl (.inr (fault?_list_of_none (e := ofRegistry r c) hitem))
    | _ => exact located_self rfl (fault?_scalar (e := ofRegistry r c) (by simp) (by simp))

end

end Encoder

namespace Profile

open Encoder

/-- A mismatch is reported where it is: at a part of the value, whose path can be read from its text
unless it is the root. Replacing the part by a null leaves errors about other places at most. -/
theorem encode_mismatch {p : Profile} {kind : String} {v : Value} {path : Path} {reason : Mismatch}
    (hr : p.registry.WellKeyed) (hcases : NamesCases p.registry)
    (hlit : EncodesLiterals p.registry p.convention) (hv : v.Keyed)
    (h : p.encodeTree kind v = .error (.mismatch path reason)) :
    (∃ part, v.getPath? path.segments = some part) ∧
      (path ≠ .root → Path.read path.display = .ok path) ∧
      ∀ err, p.encodeTree kind (v.replaceAt path.segments .null) = .error err →
        ∃ other reason, err = .mismatch other reason ∧ ¬ path.segments <+: other.segments := by
  unfold encodeTree at h ⊢
  cases hschema : p.registry.schemaFor? kind with
  | none =>
    rw [hschema] at h
    cases h
  | some schema =>
    have hdocument : ∀ {w err},
        (ofRegistry p.registry p.convention).encodeDocument w schema = .error err ↔
          fault? ((ofRegistry p.registry p.convention).encode w (some schema) false .root) =
            some err := by
      intro w err
      rw [← fault?_encodeRoot hr hlit, ← fault?_eq_some_iff, encodeDocument, fault?_bind_pure]
    simp only [hschema, hdocument] at h ⊢
    obtain ⟨segments, ⟨_, heq⟩, hlocates⟩ := located_encode hr hcases hlit hv _ h
    obtain rfl : path = ⟨segments⟩ := (EncodeError.mismatch.inj heq).1
    refine ⟨hlocates.part, fun hroot => Path.read_display hroot hlocates.readable,
      fun err herr => ?_⟩
    obtain ⟨rest, ⟨reason', rfl⟩, hnot⟩ := hlocates.elsewhere err herr
    exact ⟨_, reason', rfl, hnot⟩

/-- A dataset with a criterion whose second condition has no operator but a truth value, and with a
field that has no name of an element. -/
def misfit : Value :=
  .object [
    ("criteria", .object [("condition", .object [("children", .list [
      .null,
      .object [("condition", .object [("operator", .bool true)])]])])]),
    ("note", .object [("a b", .null)])]

theorem encode_mismatch_operator : Analytics.registry.WellKeyed ∧ NamesCases Analytics.registry ∧
    EncodesLiterals Analytics.registry .standard ∧ misfit.Keyed ∧
    Profile.encodeTree {} "dataset" misfit =
      .error (.mismatch ⟨["criteria", "condition", "children", "1", "condition", "operator"]⟩
        (.conflict (.object "operator") "boolean")) ∧
    (∃ part, misfit.getPath? ["criteria", "condition", "children", "1", "condition", "operator"] =
      some part) ∧
    Path.read "criteria.condition.children.1.condition.operator" =
      .ok ⟨["criteria", "condition", "children", "1", "condition", "operator"]⟩ ∧
    ∀ err, Profile.encodeTree {} "dataset" (misfit.replaceAt
        ["criteria", "condition", "children", "1", "condition", "operator"] .null) = .error err →
      ∃ other reason, err = .mismatch other reason ∧
        ¬ ["criteria", "condition", "children", "1", "condition", "operator"] <+:
          other.segments := by
  have hnames : (Analytics.registry.types.all fun t => match t with
      | .variant t => t.cases.all fun c => decide (IsFieldName c.1)
      | .object _ => true) = true := by
    decide +kernel
  have hcases : NamesCases Analytics.registry := fun t ht case s hs =>
    of_decide_eq_true (List.all_eq_true.1 (List.all_eq_true.1 hnames _ ht) _ hs)
  have hkeyed : misfit.Keyed := Value.keyed_of_isKeyed _ (by decide)
  have herror : Profile.encodeTree {} "dataset" misfit =
      .error (.mismatch ⟨["criteria", "condition", "children", "1", "condition", "operator"]⟩
        (.conflict (.object "operator") "boolean")) := by
    rw [← fault?_eq_some_iff]
    decide +kernel
  obtain ⟨hpart, hread, helsewhere⟩ := encode_mismatch (p := {}) Analytics.registry_wellKeyed hcases
    Analytics.registry_encodesLiterals hkeyed herror
  exact ⟨Analytics.registry_wellKeyed, hcases, Analytics.registry_encodesLiterals, hkeyed, herror,
    hpart, hread (by decide), helsewhere⟩

end Profile

end TaggedMarkup
