import TaggedMarkup.Proofs.Profile
import TaggedMarkup.Proofs.Tree.Forms
/-!
# Forms of encoded elements

The element of a value has one form, and its markers are those that the value asks for. Every element
inside an encoded tree is in turn the element of some value, a field that is filled in included, so
that a statement about all elements needs a proof about the element of a value only.
-/
namespace TaggedMarkup

namespace Encoder

open TaggedMarkup.Tree

variable {e : Encoder} {o : Option ObjectType} {path : Path} {fields : Entries Value}
  {skipCase : Bool} {entries : Entries Tree} {t : Tree} {v : Value} {schema : Option Schema}
  {verbatim : Bool}

/-! ## Objects -/

/-- No field is filled in with a run of elements. -/
def FillsElements (e : Encoder) : Prop :=
  ∀ f path t, e.fill f path = .ok t → t.isList = false

theorem isObject_of_lays (hr : e.registry.WellKeyed) (hf : e.FillsElements)
    (ho : ∀ t, o = some t → t.WellKeyed) (hd : fields.Distinct)
    (hl : e.Lays o path skipCase fields entries) : IsObject entries where
  distinct := hl.distinct ho hd
  kind := fun t ht => hl.kind ho ht
  attributes := by
    intro key t ht ha
    exact hl.exists_eq_text ho (not_isFieldName_of_isAttribute ha) ht
  data := by
    intro key t ht hk
    have hname : ¬ IsFieldName key := by rcases hk with rfl | rfl <;> decide
    exact hl.exists_eq_text ho hname ht
  oneText := by
    intro hv
    obtain ⟨t, ht⟩ := Entries.exists_of_mem_keys hv
    exact hl.text_not_mem ho hd ht
  variant := fun t ht => absurd (Entries.mem_keys_of_mem ht) (hl.variant_not_mem ho)
  item := by
    intro hmem
    obtain ⟨t, ht⟩ := Entries.exists_of_mem_keys hmem
    obtain ⟨f, -, hrel⟩ := hl.field_of_mem ho (by decide) ht
    have hne := ne_of_isReserved Marker.item (by decide) hrel.isReserved
    rcases hrel.key with hk | ⟨-, hk⟩
    · exact hne hk.symm
    · exact absurd (show Marker.item = Marker.verbatim from hk) (by decide)
  names := by
    intro key t ht ha htext hverbatim _
    by_contra hname
    obtain ⟨_, _, -, -, -, hkey⟩ := hl.exists_data ho (fun hk => hname hk.1) ha ht
    split at hkey
    · exact hverbatim hkey
    · exact htext hkey
  elements := by
    intro key t ht
    by_cases hk : IsFieldName key
    · rcases hl.cases_child hk ht with ⟨v, -, hv⟩ | ⟨f, -, hfill⟩
      · exact isList_of_encode hr hv
      · exact hf _ _ _ hfill
    · obtain ⟨text, rfl⟩ := hl.exists_eq_text ho hk ht
      rfl

/-- A case marker leaves an object what it is. -/
theorem isObject_marked {case : String} {marked : Entries Tree} (h : Marks case entries marked)
    (hv : Marker.variant ∉ entries.keys) (hobject : IsObject entries) : IsObject marked := by
  have hentry : ∀ key t, (key, t) ∈ marked →
      (key = Marker.variant ∧ t = .text case) ∨ (key, t) ∈ entries := by
    intro key t ht
    rcases h.mem_iff.1 ht with heq | ht
    · exact .inl (Prod.mk.inj heq)
    · exact .inr ht
  have hkeys : ∀ key, key ≠ Marker.variant → key ∈ marked.keys → key ∈ entries.keys := by
    intro key hne hk
    obtain ⟨t, ht⟩ := Entries.exists_of_mem_keys hk
    rcases hentry key t ht with ⟨heq, -⟩ | ht
    · exact absurd heq hne
    · exact Entries.mem_keys_of_mem ht
  refine ⟨h.distinct hobject.distinct hv, fun t ht => ?_, fun key t ht ha => ?_,
    fun key t ht hk => ?_, fun hk hk' => ?_, fun t ht => ?_, fun hk => ?_,
    fun key t ht ha htext hverbatim hne => ?_, fun key t ht => ?_⟩
  · rcases hentry _ t ht with ⟨heq, -⟩ | ht
    · exact absurd heq (by decide)
    · exact hobject.kind t ht
  · rcases hentry key t ht with ⟨-, rfl⟩ | ht
    · exact ⟨case, rfl⟩
    · exact hobject.attributes key t ht ha
  · rcases hentry key t ht with ⟨-, rfl⟩ | ht
    · exact ⟨case, rfl⟩
    · exact hobject.data key t ht hk
  · exact hobject.oneText (hkeys _ (by decide) hk) (hkeys _ (by decide) hk')
  · rcases hentry _ t ht with ⟨-, rfl⟩ | ht
    · exact ⟨case, rfl⟩
    · exact hobject.variant t ht
  · exact hobject.item (hkeys _ (by decide) hk)
  · rcases hentry key t ht with ⟨rfl, -⟩ | ht
    · exact absurd rfl hne
    · exact hobject.names key t ht ha htext hverbatim hne
  · rcases hentry key t ht with ⟨-, rfl⟩ | ht
    · rfl
    · exact hobject.elements key t ht

/-! ## The element of a value -/

/-- The case that the element of a value is marked with. -/
def markedCase? (r : Registry) (schema : Option Schema) : Value → Option String
  | .object fields =>
    match schema.map r.resolve with
    | none | some (.primitive .unknown) => untypedCase? fields none
    | some (.object o) => (untypedCase? fields (some o)).or o.tag
    | some (.variant v) =>
      if fields.isEmpty then none else ((explicitCase? v fields).or v.soleCase?).map Prod.fst
    | some _ => none
  | _ => none

/-- The kinds that the element of a value can be marked with. -/
def mayMark : Value → Kind → Bool
  | .null, .null | .object _, .null | .list _, .array | .bool _, .boolean | .string _, .string => true
  | _, _ => false

/-- An element has a form, and its markers are those that its value asks for. -/
structure Marked (r : Registry) (schema : Option Schema) (v : Value) (entries : Entries Tree) :
    Prop where
  form : ∃ form : Form, form.Fits entries
  kind : ∀ k, Tree.kind? (.map entries) = some k → mayMark v k = true
  case : Tree.variantMarker? (.map entries) = markedCase? r schema v

/-- An element without markers has something to say. -/
def Speaks (entries : Entries Tree) : Prop :=
  Tree.kind? (.map entries) = none → Marker.variant ∉ entries.keys →
    ∃ a ∈ entries, a.2.isPlaceholder = false

theorem Marks.variantMarker? {case : String} {marked : Entries Tree}
    (h : Marks case entries marked) (hv : Marker.variant ∉ entries.keys) :
    Tree.variantMarker? (.map marked) = some case := by
  unfold Tree.variantMarker? Tree.marker?
  rw [asEntries?, Option.bind_some, h.get?_variant hv]
  rfl

/-- The elements that an object can become, by the case it is marked with. -/
inductive Finished (entries : Entries Tree) (collapse : Bool) : Option String → Tree → Prop
  | blank (h : collapse = true) : Finished entries collapse none .null
  | bare (h : collapse = true → ∃ a ∈ entries, a.2.isPlaceholder = false) :
      Finished entries collapse none (.map entries)
  | case {case : String} {marked : Entries Tree} (h : Marks case entries marked) :
      Finished entries collapse (some case) (.map marked)

theorem finished_finishObject (ho : ∀ t, o = some t → t.WellKeyed) (hd : fields.Distinct)
    (hl : e.Lays o path skipCase fields entries) (case : Option String) (collapse : Bool) :
    Finished entries collapse (case.or (o.bind ObjectType.tag))
      (finishObject case o collapse entries) := by
  cases case with
  | some case =>
    rw [finishObject_some ho hd hl]
    exact .case .first
  | none =>
    rw [Option.none_or]
    cases ht : o.bind ObjectType.tag with
    | some tag =>
      rw [finishObject_tag ho hl ht]
      exact .case .last
    | none =>
      rw [finishObject_none ht]
      split
      · next h => exact .blank h.1
      · next h =>
        refine .bare fun hcollapse => ?_
        by_contra hall
        refine h ⟨hcollapse, List.all_eq_true.2 fun a ha => ?_⟩
        by_contra hspeaks
        exact hall ⟨a, ha, by simpa using hspeaks⟩

theorem markedCase?_plain {r : Registry} (h : plainType? (schema.map r.resolve) = some o) :
    markedCase? r schema (.object fields) =
      (untypedCase? fields o).or (o.bind ObjectType.tag) := by
  rw [markedCase?]
  generalize schema.map r.resolve = resolved at h
  match resolved with
  | none | some (.primitive .unknown) =>
    cases h
    simp
  | some (.object t) =>
    cases h
    rfl

/-- What an object is finished as is marked as the object asks for. -/
theorem Finished.marked {collapse : Bool} {case : Option String} {r : Registry}
    (hobject : IsObject entries) (hv : Marker.variant ∉ entries.keys)
    (hcase : markedCase? r schema (.object fields) = case) {shown : Entries Tree}
    (h : Finished entries collapse case (.map shown)) :
    Marked r schema (.object fields) shown ∧ (collapse = true → Speaks shown) := by
  generalize ht : Tree.map shown = t at h
  cases h with
  | blank _ =>
    obtain rfl : shown = [(Marker.kind, .text Kind.null.text)] := Tree.map.inj ht
    refine ⟨⟨⟨.marked .null, rfl⟩, fun k hk => ?_, ?_⟩, fun _ hkind => ?_⟩
    · cases (kind?_cons .null []).symm.trans hk
      rfl
    · rw [hcase]
      exact variantMarker?_of_not_mem (by decide)
    · cases (kind?_cons .null []).symm.trans hkind
  | bare hspeaks =>
    obtain rfl := Tree.map.inj ht
    obtain ⟨form, hform, -⟩ := hobject.exists_form
    refine ⟨⟨⟨form, hform⟩, fun k hk => ?_, ?_⟩, fun hc _ _ => hspeaks hc⟩
    · cases (kind?_of_kindFree hobject.kind).symm.trans hk
    · rw [hcase]
      exact variantMarker?_of_not_mem hv
  | @case c marked hm =>
    obtain rfl := Tree.map.inj ht
    have hmarked := isObject_marked hm hv hobject
    obtain ⟨form, hform, -⟩ := hmarked.exists_form
    refine ⟨⟨⟨form, hform⟩, fun k hk => ?_, ?_⟩, fun _ _ hnot => ?_⟩
    · cases (kind?_of_kindFree hmarked.kind).symm.trans hk
    · rw [hcase]
      exact hm.variantMarker? hv
    · exact absurd (Entries.mem_keys_of_mem (hm.mem_iff.2 (.inl rfl))) hnot

/-- The element of an object is finished from the entries of the object or of one of its fields. -/
theorem exists_finished (hr : e.registry.WellKeyed) (hk : (Value.object fields).Keyed)
    (h : e.encode (.object fields) schema verbatim path = .ok t) :
    ∃ v inner o path skipCase laid, (v = .object fields ∨ ∃ key, (key, v) ∈ fields) ∧
      objectFields? v = some inner ∧ inner.Distinct ∧
      (∀ t, o = some t → .object t ∈ e.registry.types) ∧ e.Lays o path skipCase inner laid ∧
      Finished laid true (markedCase? e.registry schema (.object fields)) t := by
  have hshape := (encode_object_eq_ok_iff hr).1 h
  generalize hresolved : schema.map e.registry.resolve = resolved at hshape
  cases hshape with
  | @plain _ o laid hp hl =>
    rw [← hresolved] at hp
    have ho := fun t => mem_types_of_plainType? (t := t) hp
    refine ⟨_, fields, o, path, _, laid, .inl rfl, rfl, hk.distinct, ho, hl, ?_⟩
    rw [markedCase?_plain hp]
    exact finished_finishObject (fun t ht => hr.objects t (ho t ht)) hk.distinct hl _ true
  | blank hp hempty =>
    subst hempty
    have hcase : markedCase? e.registry schema (.object []) = none := by
      rw [markedCase?, hresolved]
      match resolved with
      | some (.primitive .string) | some (.primitive .number) | some (.primitive .boolean)
      | some (.list _) | some (.variant _) => rfl
    refine ⟨_, [], none, path, false, [], .inl rfl, rfl, List.nodup_nil, by simp,
      ⟨[], [], .nil, .nil, rfl⟩, ?_⟩
    rw [hcase]
    exact .blank rfl
  | @explicit v case s payload inner laid hc hfields hp hl =>
    have ho : ∀ t, e.registry.objectOf? s = some t → .object t ∈ e.registry.types :=
      fun t => Registry.mem_types_of_objectOf?
    have hpayload : (case, payload) ∈ fields := by simp [hfields]
    have hd : inner.Distinct := distinct_of_objectFields? (hk.of_mem_fields hpayload) hp
    have hcase : markedCase? e.registry schema (.object fields) = some case := by
      have hne : fields ≠ [] := by simp [hfields]
      rw [markedCase?, hresolved]
      simp [hc, hne]
    refine ⟨payload, inner, _, _, _, laid, .inr ⟨case, hpayload⟩, hp, hd, ho, hl, ?_⟩
    rw [hcase, finishCase_eq (fun t ht => hr.objects t (ho t ht)) hd hl]
    exact .case .first
  | @implied v case s laid hne hc hs hl =>
    have ho : ∀ t, e.registry.objectOf? s = some t → .object t ∈ e.registry.types :=
      fun t => Registry.mem_types_of_objectOf?
    have hcase : markedCase? e.registry schema (.object fields) = some case := by
      rw [markedCase?, hresolved]
      simp [hc, hs, hne]
    refine ⟨_, fields, _, _, _, laid, .inl rfl, rfl, hk.distinct, ho, hl, ?_⟩
    rw [hcase, finishCase_eq (fun t ht => hr.objects t (ho t ht)) hk.distinct hl]
    exact .case .first

/-- The element of any value is marked as the value asks for. -/
theorem marked_of_encode (hr : e.registry.WellKeyed) (hf : e.FillsElements) (hk : v.Keyed)
    (h : e.encode v schema verbatim path = .ok (.map entries)) :
    Marked e.registry schema v entries ∧ Speaks entries := by
  have hkind : ∀ (kind : Kind) rest, entries = (Marker.kind, .text kind.text) :: rest →
      (Form.marked kind).Fits entries → mayMark v kind = true →
      markedCase? e.registry schema v = none →
      Marked e.registry schema v entries ∧ Speaks entries := by
    intro kind rest heq hform hmay hcase
    have hseen : Tree.kind? (.map entries) = some kind := hform.kind?
    refine ⟨⟨⟨_, hform⟩, fun k hk => ?_, ?_⟩, fun hnone => ?_⟩
    · cases hseen.symm.trans hk
      exact hmay
    · rw [hcase]
      exact variantMarker?_of_not_mem (hform.variant_not_mem (by simp))
    · cases hseen.symm.trans hnone
  cases v with
  | null =>
    rw [encode] at h
    cases h
    exact hkind .null [] rfl rfl rfl rfl
  | bool b =>
    cases encode_scalar (by simp [scalarTree]) h
    exact hkind .boolean _ rfl ⟨_, rfl⟩ rfl rfl
  | number n => cases encode_scalar (by simp [scalarTree]) h
  | reference r => cases encode_scalar (by simp [scalarTree]) h
  | string text =>
    have htree : stringTree text verbatim = .map entries :=
      Option.some.inj (encode_scalar (by simp [scalarTree]) h)
    unfold stringTree at htree
    split at htree
    · obtain rfl : entries = [(Marker.verbatim, .text text)] := (Tree.map.inj htree).symm
      have hform : Form.verbatim.Fits [(Marker.verbatim, .text text)] := ⟨text, rfl⟩
      refine ⟨⟨⟨_, hform⟩, fun k hk => ?_, ?_⟩, fun _ _ => ?_⟩
      · cases hform.kind?.symm.trans hk
      · exact variantMarker?_of_not_mem (hform.variant_not_mem (by simp))
      · exact ⟨_, List.mem_singleton_self _, by simp [isPlaceholder, asEntries?]⟩
    · split at htree
      · obtain rfl := (Tree.map.inj htree).symm
        exact hkind .string _ rfl ⟨text, rfl⟩ rfl rfl
      · cases htree
  | list items =>
    obtain ⟨item, ts, -, -, htree⟩ := encode_list_eq_ok_iff.1 h
    unfold Tree.array at htree
    split at htree
    · obtain rfl := Tree.map.inj htree
      exact hkind .array [] rfl (.inl rfl) rfl rfl
    · next hne =>
      obtain rfl := Tree.map.inj htree
      exact hkind .array _ rfl (.inr ⟨ts, by simpa using hne, rfl⟩) rfl rfl
  | object fields =>
    obtain ⟨v, inner, o, p, skipCase, laid, -, -, hd, ho, hl, hfinished⟩ := exists_finished hr hk h
    have hwell : ∀ t, o = some t → t.WellKeyed := fun t ht => hr.objects t (ho t ht)
    obtain ⟨hmarked, hspeaks⟩ := hfinished.marked (isObject_of_lays hr hf hwell hd hl)
      (hl.variant_not_mem hwell) rfl
    exact ⟨hmarked, hspeaks rfl⟩

/-! ## Elements inside -/

/-- The encoder whose defaults lead to at most `chain` further ones. -/
abbrev chained (r : Registry) (c : Convention) (chain : Nat) : Encoder :=
  ⟨r, c, fillField r c chain⟩

/-- A tree that is no element of its own, or the element of a value. -/
inductive Origin (r : Registry) (c : Convention) : Tree → Prop
  | text (s : String) : Origin r c (.text s)
  | list {items : List Tree} (nonempty : items ≠ []) (elements : ∀ t ∈ items, t.isList = false) :
      Origin r c (.list items)
  | value {v : Value} {schema : Option Schema} {chain : Nat} {verbatim : Bool} {path : Path}
      {t : Tree} (hk : v.Keyed) (h : (chained r c chain).encode v schema verbatim path = .ok t) :
      Origin r c t

section

variable {r : Registry} {c : Convention} {chain : Nat}

theorem fillsElements_chained (hr : r.WellKeyed) : (chained r c chain).FillsElements := by
  intro f path t h
  cases chain with
  | zero => cases h
  | succ chain => exact isList_of_encode (e := chained r c chain) hr h

/-- Everything inside the elements of a value has an origin. -/
def ElementsOriginate (r : Registry) (c : Convention) (chain : Nat) (v : Value) : Prop :=
  ∀ schema verbatim path t, (chained r c chain).encode v schema verbatim path = .ok t →
    Everywhere (Origin r c) t

/-- Everything inside the entries that a value has as an object has an origin. -/
def EntriesOriginate (r : Registry) (c : Convention) (chain : Nat) (v : Value) : Prop :=
  ∀ fields o path skipCase entries, objectFields? v = some fields →
    (∀ t, o = some t → .object t ∈ r.types) →
    (chained r c chain).Lays o path skipCase fields entries →
    ∀ a ∈ entries, Everywhere (Origin r c) a.2

/-- Everything inside what a field is filled in with has an origin. -/
def FillsOriginate (r : Registry) (c : Convention) (chain : Nat) : Prop :=
  ∀ o name f path t, .object o ∈ r.types → (name, f) ∈ o.fields →
    fillField r c chain f path = .ok t → Everywhere (Origin r c) t

theorem origin_of_lays (hf : FillsOriginate r c chain)
    (ho : ∀ t, o = some t → .object t ∈ r.types)
    (heach : ∀ key v, (key, v) ∈ fields → ElementsOriginate r c chain v)
    (hl : (chained r c chain).Lays o path skipCase fields entries) :
    ∀ a ∈ entries, Everywhere (Origin r c) a.2 := by
  intro a ha
  rcases hl.cases_mem ha with ⟨f, hm, hrel⟩ | ⟨⟨name, f⟩, hm, -, hfill⟩
  · have hmem := List.mem_of_mem_filter hm
    cases hrel with
    | attr _ _ _ => exact everywhere_text (.text _)
    | text _ => exact everywhere_text (.text _)
    | child _ ht => exact heach _ _ hmem _ _ _ _ ht
  · obtain ⟨⟨u, hu, hmem⟩, -, -⟩ := mem_missingFields.1 hm
    exact hf u name f _ _ (ho u hu) hmem hfill

theorem origin_of_marks {case : String} {marked : Entries Tree} (h : Marks case entries marked)
    (heach : ∀ a ∈ entries, Everywhere (Origin r c) a.2) :
    ∀ a ∈ marked, Everywhere (Origin r c) a.2 := by
  intro a ha
  rcases h.mem_iff.1 ha with rfl | ha
  · exact everywhere_text (.text case)
  · exact heach a ha

/-- Everything inside has an origin if the element has one and its entries are texts. -/
theorem everywhere_of_texts (h : Origin r c t)
    (htexts : ∀ entries, t = .map entries → ∀ a ∈ entries, ∃ s, a.2 = .text s)
    (hlist : t.isList = false) : Everywhere (Origin r c) t := by
  cases t with
  | text s => exact everywhere_text h
  | list items => cases hlist
  | map entries =>
    refine everywhere_map h fun a ha => ?_
    obtain ⟨s, hs⟩ := htexts entries rfl a ha
    rw [hs]
    exact everywhere_text (.text s)

theorem origin_of_scalar (hk : v.Keyed) (hs : (chained r c chain).scalarTree verbatim v = some t)
    (h : (chained r c chain).encode v schema verbatim path = .ok t) :
    Everywhere (Origin r c) t := by
  refine everywhere_of_texts (.value hk h) (fun entries ht a ha => ?_) (writable_scalarTree hs).2
  subst ht
  cases v with
  | bool b =>
    obtain rfl := Tree.map.inj (Option.some.inj hs)
    simp only [List.mem_cons, List.not_mem_nil, or_false] at ha
    rcases ha with rfl | rfl <;> exact ⟨_, rfl⟩
  | string text =>
    have htree : stringTree text verbatim = .map entries := Option.some.inj hs
    unfold stringTree at htree
    split at htree
    · obtain rfl := Tree.map.inj htree
      rw [List.mem_singleton.1 ha]
      exact ⟨text, rfl⟩
    · split at htree
      · obtain rfl := Tree.map.inj htree
        simp only [List.mem_cons, List.not_mem_nil, or_false] at ha
        rcases ha with rfl | rfl <;> exact ⟨_, rfl⟩
      · cases htree
  | _ => cases hs

theorem origin_null : Everywhere (Origin r c) Tree.null := by
  have h : Origin r c Tree.null :=
    @Origin.value r c .null none 0 false .root Tree.null .null rfl
  refine everywhere_of_texts h (fun entries ht a ha => ?_) rfl
  obtain rfl := Tree.map.inj ht
  rw [List.mem_singleton.1 ha]
  exact ⟨_, rfl⟩

/-- What an object is finished as has an origin, given one of its own where it has entries. -/
theorem Finished.origin {collapse : Bool} {case : Option String}
    (h : Finished entries collapse case t) (heach : ∀ a ∈ entries, Everywhere (Origin r c) a.2) :
    ∀ u, Below u t → Origin r c u := by
  cases h with
  | blank _ => exact fun u hu => origin_null u (within_iff.2 (.inr hu))
  | bare _ => exact forall_below_map heach
  | case hm => exact forall_below_map (origin_of_marks hm heach)

/-- An array holds its kind and, unless it is empty, its items as a list element. -/
theorem origin_array {ts : List Tree} (h : Origin r c (.array ts))
    (heach : ∀ u ∈ ts, u.isList = false ∧ Everywhere (Origin r c) u) :
    Everywhere (Origin r c) (.array ts) := by
  unfold Tree.array at h ⊢
  split
  · next hempty =>
    rw [if_pos hempty] at h
    refine everywhere_map h fun a ha => ?_
    rw [List.mem_singleton.1 ha]
    exact everywhere_text (.text _)
  · next hne =>
    rw [if_neg hne] at h
    refine everywhere_map h fun a ha => ?_
    simp only [List.mem_cons, List.not_mem_nil, or_false] at ha
    rcases ha with rfl | rfl
    · exact everywhere_text (.text _)
    · exact everywhere_list (.list (by simpa using hne) fun u hu => (heach u hu).1)
        fun u hu => (heach u hu).2

theorem elementsOriginate_list (hr : r.WellKeyed) {items : List Value}
    (hk : ∀ v ∈ items, v.Keyed) (heach : ∀ v ∈ items, ElementsOriginate r c chain v) :
    ElementsOriginate r c chain (.list items) := by
  intro schema verbatim path t h
  have horigin : Origin r c t := .value (.list hk) h
  obtain ⟨item, ts, -, hts, rfl⟩ := encode_list_eq_ok_iff.1 h
  refine origin_array horigin fun u hu => ?_
  obtain ⟨v, hv, q, hq⟩ := mem_of_forall₂_right (forall₂_of_encodeItems hts) hu
  exact ⟨isList_of_encode (e := chained r c chain) hr hq, heach v hv _ _ _ _ hq⟩

theorem elementsOriginate_object (hr : r.WellKeyed) (hf : FillsOriginate r c chain)
    (hk : (Value.object fields).Keyed)
    (heach : ∀ key v, (key, v) ∈ fields →
      ElementsOriginate r c chain v ∧ EntriesOriginate r c chain v) :
    ElementsOriginate r c chain (.object fields) := by
  intro schema verbatim path t h
  obtain ⟨v, inner, o, p, skipCase, laid, hv, hinner, -, ho, hl, hfinished⟩ :=
    exists_finished (e := chained r c chain) hr hk h
  have hlaid : ∀ a ∈ laid, Everywhere (Origin r c) a.2 := by
    rcases hv with rfl | ⟨key, hm⟩
    · cases hinner
      exact origin_of_lays hf ho (fun key v hm => (heach key v hm).1) hl
    · exact (heach key v hm).2 inner o p skipCase laid hinner ho hl
  intro u hu
  rcases within_iff.1 hu with rfl | hu
  · exact .value hk h
  · exact hfinished.origin hlaid u hu

/-- A scalar is written as its own tree, and has no fields. -/
theorem originate_scalar (hk : v.Keyed)
    (hv : ∀ verbatim, (chained r c chain).scalarTree verbatim v ≠ none)
    (hnone : objectFields? v = none) :
    ElementsOriginate r c chain v ∧ EntriesOriginate r c chain v := by
  refine ⟨fun schema verbatim path t h => ?_, fun fields o path skipCase entries hfields => ?_⟩
  · exact origin_of_scalar hk (encode_scalar (hv verbatim) h) h
  · cases hnone.symm.trans hfields

theorem originate_of_keyed (hr : r.WellKeyed) (hf : FillsOriginate r c chain) (hk : v.Keyed) :
    ElementsOriginate r c chain v ∧ EntriesOriginate r c chain v := by
  induction hk with
  | null =>
    refine ⟨fun schema verbatim path t h => ?_, fun fields o path skipCase entries hv ho hl => ?_⟩
    · rw [encode] at h
      exact Except.ok.inj h ▸ origin_null
    · cases hv
      exact origin_of_lays hf ho (by simp) hl
  | bool b => exact originate_scalar (.bool b) (by simp [scalarTree]) rfl
  | number n => exact originate_scalar (.number n) (by simp [scalarTree]) rfl
  | string text => exact originate_scalar (.string text) (by simp [scalarTree]) rfl
  | reference q => exact originate_scalar (.reference q) (by simp [scalarTree]) rfl
  | @list items hkeyed ih =>
    refine ⟨elementsOriginate_list hr hkeyed fun v hv => (ih v hv).1, ?_⟩
    intro _ _ _ _ _ hv
    cases hv
  | @object fields hd hkeyed ih =>
    refine ⟨elementsOriginate_object hr hf (.object hd hkeyed) ih, ?_⟩
    intro inner o path skipCase entries hv ho hl
    cases hv
    exact origin_of_lays hf ho (fun key v hm => (ih key v hm).1) hl

theorem fillsOriginate (hr : r.WellKeyed) (c : Convention) (chain : Nat) :
    FillsOriginate r c chain := by
  induction chain with
  | zero =>
    intro o name f path t ho hf h
    cases h
  | succ chain ih =>
    intro o name f path t ho hf h
    exact (originate_of_keyed hr ih (hr.synthesizeField (hr.objects o ho) hf)).1 _ _ _ _ h

/-- Everything inside the element of a value has an origin. -/
theorem origin_of_encode (hr : r.WellKeyed) (hk : v.Keyed)
    (h : (chained r c chain).encode v schema verbatim path = .ok t) : Everywhere (Origin r c) t :=
  (originate_of_keyed hr (fillsOriginate hr c chain) hk).1 _ _ _ _ h

/-! ## Whole definitions -/

/-- An element that a value is encoded as, at the root or inside. -/
inductive Writes (r : Registry) (c : Convention) (v : Value) (schema : Option Schema) (t : Tree) :
    Prop
  | root {s : Schema} (hs : schema = some s) (h : (ofRegistry r c).encodeRoot v s = .ok t) :
      Writes r c v schema t
  | inner {chain : Nat} {verbatim : Bool} {path : Path}
      (h : (chained r c chain).encode v schema verbatim path = .ok t) : Writes r c v schema t

/-- What stands under a root element can be told apart. -/
structure IsSyntax (r : Registry) (c : Convention) (root : Tree) : Prop where
  element : root.isList = false
  forms : ∀ entries, Within (.map entries) root → ∃! form : Form, form.Fits entries
  lists : ∀ entries key t, Within (.map entries) root → (key, t) ∈ entries → t.isList = true →
    key = Marker.item
  items : ∀ items, Within (.list items) root → items ≠ [] ∧ ∀ t ∈ items, t.isList = false
  speaks : ∀ entries, Below (.map entries) root → Speaks entries
  marked : ∀ entries, Within (.map entries) root →
    ∃ v schema, Writes r c v schema (.map entries) ∧ Marked r schema v entries

theorem Marked.existsUnique_form (h : Marked r schema v entries) : ∃! form : Form, form.Fits entries := by
  obtain ⟨form, hform⟩ := h.form
  exact ⟨form, hform, fun other hother => hother.unique hform⟩

/-- A run of elements stands only where the items of a list do. -/
theorem Marked.eq_item (h : Marked r schema v entries) {key : String} (hm : (key, t) ∈ entries)
    (hl : t.isList = true) : key = Marker.item := by
  obtain ⟨form, hform⟩ := h.form
  have hpair : ∀ (a b : String) (s u : String),
      (key, t) ∈ [(a, Tree.text s), (b, Tree.text u)] → key = Marker.item := by
    intro a b s u hm
    simp only [List.mem_cons, Prod.mk.injEq, List.not_mem_nil, or_false] at hm
    rcases hm with ⟨-, rfl⟩ | ⟨-, rfl⟩ <;> cases hl
  have hsingle : ∀ (a s : String), (key, t) ∈ [(a, Tree.text s)] → key = Marker.item := by
    intro a s hm
    obtain ⟨-, rfl⟩ := Prod.mk.inj (List.mem_singleton.1 hm)
    cases hl
  match form with
  | .marked .null =>
    obtain rfl := hform
    exact hsingle _ _ hm
  | .marked .array =>
    rcases hform with rfl | ⟨items, -, rfl⟩
    · exact hsingle _ _ hm
    · simp only [List.mem_cons, Prod.mk.injEq, List.not_mem_nil, or_false] at hm
      rcases hm with ⟨-, rfl⟩ | ⟨rfl, -⟩
      · cases hl
      · rfl
  | .marked .boolean | .marked .string =>
    obtain ⟨s, rfl⟩ := hform
    exact hpair _ _ _ _ hm
  | .verbatim =>
    obtain ⟨s, rfl⟩ := hform
    exact hsingle _ _ hm
  | .object =>
    rw [hform.1.elements key t hm] at hl
    cases hl

theorem Origin.marked (hr : r.WellKeyed) (h : Origin r c (.map entries)) :
    ∃ v schema, Writes r c v schema (.map entries) ∧ Marked r schema v entries ∧ Speaks entries := by
  cases h with
  | @value v schema chain verbatim path _ hk h =>
    obtain ⟨hmarked, hspeaks⟩ :=
      marked_of_encode (e := chained r c chain) hr (fillsElements_chained hr) hk h
    exact ⟨v, schema, .inner h, hmarked, hspeaks⟩

/-- A definition left null is an object without fields. -/
theorem encodeRoot_null (e : Encoder) (schema : Schema) :
    e.encodeRoot .null schema = e.encodeRoot (.object []) schema := by
  have hnested : plainType? (some (e.registry.resolve schema)) = none →
      e.encode .null (some schema) false .root = e.encode (.object []) (some schema) false .root := by
    intro h
    rw [encode, encode, Option.map_some]
    generalize e.registry.resolve schema = resolved at h
    match resolved with
    | .primitive .string | .primitive .number | .primitive .boolean | .list _ | .variant _ => rfl
  unfold encodeRoot
  match hs : e.registry.resolve schema with
  | .object o => rfl
  | .primitive .unknown => rfl
  | .primitive .string | .primitive .number | .primitive .boolean | .list _ | .variant _ =>
    exact hnested (by rw [hs]; rfl)

/-- The element of the root, whose own entries may all say nothing. -/
theorem marked_of_encodeRoot (hr : r.WellKeyed) (hk : v.Keyed) {s : Schema}
    (h : (ofRegistry r c).encodeRoot v s = .ok t) :
    t.isList = false ∧ (∀ u, Below u t → Origin r c u) ∧
      ∀ entries, t = .map entries →
        ∃ v, Writes r c v (some s) t ∧ Marked r (some s) v entries := by
  refine ⟨isList_of_encodeRoot (e := ofRegistry r c) hr h, ?_⟩
  have hshape := (encodeRoot_eq_ok_iff (e := ofRegistry r c) hr).1 h
  cases hshape with
  | nested _ hinner =>
    have horigin := origin_of_encode hr hk hinner
    refine ⟨fun u hu => horigin u (within_iff.2 (.inr hu)), fun entries ht => ?_⟩
    subst ht
    exact ⟨v, .root rfl h,
      (marked_of_encode (e := ofRegistry r c) hr (fillsElements_chained hr) hk hinner).1⟩
  | @body fields o entries hv hp hl =>
    have hp : plainType? ((some s).map r.resolve) = some o := hp
    have ho : ∀ t, o = some t → .object t ∈ r.types :=
      fun t => mem_types_of_plainType? hp
    have hwell : ∀ t, o = some t → t.WellKeyed := fun t ht => hr.objects t (ho t ht)
    have hd : fields.Distinct := distinct_of_objectFields? hk hv
    have hfinished := finished_finishObject hwell hd hl (untypedCase? fields o) false
    have horigin := (originate_of_keyed hr (fillsOriginate hr c _) hk).2 fields o _ _ _ hv ho hl
    refine ⟨hfinished.origin horigin, fun shown ht => ⟨.object fields, .root rfl ?_, ?_⟩⟩
    · cases v with
      | object _ => cases hv; exact h
      | null => cases hv; rwa [← encodeRoot_null]
      | _ => cases hv
    · rw [ht] at hfinished
      exact (hfinished.marked (isObject_of_lays (e := ofRegistry r c) hr (fillsElements_chained hr)
        hwell hd hl) (hl.variant_not_mem hwell) (markedCase?_plain hp)).1

theorem isSyntax_of_encodeRoot (hr : r.WellKeyed) (hk : v.Keyed) {s : Schema}
    (h : (ofRegistry r c).encodeRoot v s = .ok t) : IsSyntax r c t := by
  obtain ⟨hlist, hbelow, hroot⟩ := marked_of_encodeRoot hr hk h
  have hmarked : ∀ entries, Within (.map entries) t →
      ∃ v schema, Writes r c v schema (.map entries) ∧ Marked r schema v entries := by
    intro entries hwithin
    rcases within_iff.1 hwithin with heq | hwithin
    · obtain ⟨v, hwrites, hm⟩ := hroot entries heq.symm
      exact ⟨v, some s, heq ▸ hwrites, hm⟩
    · obtain ⟨v, schema, hwrites, hm, -⟩ := (hbelow _ hwithin).marked hr
      exact ⟨v, schema, hwrites, hm⟩
  refine ⟨hlist, fun entries hwithin => ?_, fun entries key u hwithin hm hl => ?_,
    fun items hwithin => ?_, fun entries hwithin => ?_, hmarked⟩
  · obtain ⟨_, _, -, hm⟩ := hmarked entries hwithin
    exact hm.existsUnique_form
  · obtain ⟨_, _, -, h⟩ := hmarked entries hwithin
    exact h.eq_item hm hl
  · rcases within_iff.1 hwithin with rfl | hwithin
    · cases hlist
    · cases hbelow _ hwithin with
      | list nonempty elements => exact ⟨nonempty, elements⟩
      | value _ h => exact absurd (isList_of_encode (e := chained r c _) hr h) (by simp [isList])
  · obtain ⟨_, _, -, -, hspeaks⟩ := (hbelow _ hwithin).marked hr
    exact hspeaks

end

end Encoder

end TaggedMarkup
