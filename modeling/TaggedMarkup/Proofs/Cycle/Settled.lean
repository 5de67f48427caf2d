import TaggedMarkup.Proofs.Cycle.Leaves
import TaggedMarkup.Proofs.Encoding.Paths
import TaggedMarkup.Proofs.Sameness
/-!
# Values that encoding and decoding give back

A value is settled at a place if it can be encoded there and what is read back is the same, exactly
if no case marker has a blank at an end: reading cuts it, and the encoder does not guard it as it
guards other texts. Scalars are settled once their text has been read, lists with their items.
-/
namespace TaggedMarkup

open Encoder Markup

namespace Tree

mutual

/-- No case marker has a blank at an end. -/
def casesUnpadded : Tree → Bool
  | .text _ => true
  | .list items => casesUnpaddedOfItems items
  | .map entries => casesUnpaddedOfEntries entries

def casesUnpaddedOfItems : List Tree → Bool
  | [] => true
  | t :: rest => casesUnpadded t && casesUnpaddedOfItems rest

def casesUnpaddedOfEntries : List (String × Tree) → Bool
  | [] => true
  | (key, t) :: rest =>
    (if key = Marker.variant then t.asText?.all fun s => decide (Unpadded s)
      else casesUnpadded t) && casesUnpaddedOfEntries rest

end

theorem casesUnpadded_list_iff {items : List Tree} :
    (Tree.list items).casesUnpadded = true ↔ ∀ t ∈ items, t.casesUnpadded = true := by
  rw [casesUnpadded]
  induction items with
  | nil => simp [casesUnpaddedOfItems]
  | cons t rest ih => simp [casesUnpaddedOfItems, ih]

theorem casesUnpadded_map_iff {entries : Entries Tree} :
    (Tree.map entries).casesUnpadded = true ↔ ∀ key t, (key, t) ∈ entries →
      (if key = Marker.variant then t.asText?.all fun s => decide (Unpadded s)
        else t.casesUnpadded) = true := by
  rw [casesUnpadded]
  induction entries with
  | nil => simp [casesUnpaddedOfEntries]
  | cons e rest ih =>
    obtain ⟨key, t⟩ := e
    rw [casesUnpaddedOfEntries, Bool.and_eq_true, ih]
    constructor
    · rintro ⟨ht, hrest⟩ k u hm
      rcases List.mem_cons.1 hm with he | hm
      · obtain ⟨rfl, rfl⟩ := Prod.mk.inj he
        exact ht
      · exact hrest k u hm
    · intro h
      exact ⟨h key t List.mem_cons_self, fun k u hm => h k u (List.mem_cons_of_mem _ hm)⟩

theorem casesUnpadded_array_iff {items : List Tree} :
    (Tree.array items).casesUnpadded = true ↔ ∀ t ∈ items, t.casesUnpadded = true := by
  have hkind : Marker.kind ≠ Marker.variant := by decide
  have hitem : Marker.item ≠ Marker.variant := by decide
  by_cases hne : items = []
  · subst hne
    simp [array, casesUnpadded, casesUnpaddedOfEntries, hkind]
  · rw [← casesUnpadded_list_iff, array, if_neg (by simpa using hne)]
    simp [casesUnpadded, casesUnpaddedOfEntries, hkind, hitem]

end Tree

/-- The value comes back from its tree, exactly if no case in there is padded. -/
def Settled (e : Encoder) (store : Store) (s : Option Schema) (verbatim : Bool) (v : Value) : Prop :=
  ∃ t, (∀ path, e.encode v s verbatim path = .ok t) ∧
    ∀ res, (e.reader res).Knows store t.reread →
      (v.same ((e.reader res).decode t.reread s) = true ↔ t.casesUnpadded = true)

variable {e : Encoder} {store : Store} {res : Resolutions} {s : Option Schema} {verbatim : Bool}

/-! ## Scalars -/

theorem same_self_of_hasText {v : Value} (h : v.hasText = true) : v.same v = true := by
  cases v with
  | null => cases h
  | list items => cases h
  | object fields => cases h
  | reference r => exact Value.same_reference r
  | _ => exact Value.same_self_of_isScalar rfl

theorem casesUnpadded_scalarTree {v : Value} {t : Tree} (h : e.scalarTree verbatim v = some t) :
    t.casesUnpadded = true := by
  have htyped : ∀ (kind : Kind) (text : String), (Tree.typed kind text).casesUnpadded = true := by
    intro kind text
    simp [Tree.typed, Tree.casesUnpadded, Tree.casesUnpaddedOfEntries,
      show Marker.kind ≠ Marker.variant by decide, show Marker.text ≠ Marker.variant by decide]
  cases v with
  | string text =>
    obtain rfl := Option.some.inj h
    unfold stringTree
    split
    · simp [Tree.verbatim, Tree.casesUnpadded, Tree.casesUnpaddedOfEntries,
        show Marker.verbatim ≠ Marker.variant by decide]
    · split
      · exact htyped _ _
      · rfl
  | bool b => exact Option.some.inj h ▸ htyped _ _
  | number n => exact Option.some.inj h ▸ rfl
  | reference r => exact Option.some.inj h ▸ rfl
  | _ => cases h

/-- A scalar that its tree gives back is settled. -/
theorem settled_of_hasText {v : Value} (hv : v.hasText = true) {t : Tree}
    (ht : e.scalarTree verbatim v = some t)
    (hencode : ∀ path, e.encode v s verbatim path = .ok t)
    (h : ∀ res, (e.reader res).Knows store t.reread → (e.reader res).decode t.reread s = v) :
    Settled e store s verbatim v := by
  refine ⟨t, hencode, fun res hknows => ?_⟩
  rw [h res hknows, same_self_of_hasText hv, casesUnpadded_scalarTree ht]

theorem settled_bool (hs : takesScalar (s.map e.registry.resolve) = true) (b : Bool) :
    Settled e store s verbatim (.bool b) :=
  settled_of_hasText rfl rfl (encode_of_hasText rfl hs rfl) fun _ _ =>
    Decoder.decode_reread_boolean s b

theorem settled_reference {r : Reference}
    (h : e.convention.spelled? store (e.convention.render r) = some r) :
    Settled e store s verbatim (.reference r) := by
  have hunpadded := (Convention.spelled?_eq_some h).2.1
  refine settled_of_hasText (t := .text (e.convention.render r)) rfl rfl (fun path => rfl)
    fun res hknows => ?_
  rw [Tree.reread_text hunpadded] at hknows
  rw [Decoder.decode_reread_text s hunpadded, scalar_eq_settle hknows, settle, h]

/-- What a text settles as comes back as that. -/
theorem settled_settle (hs : takesScalar (s.map e.registry.resolve) = true) (text : String) :
    Settled e store s verbatim (e.settle store text s) := by
  cases hspelled : e.convention.spelled? store text with
  | some r =>
    have hrender := (Convention.spelled?_eq_some hspelled).1
    rw [settle, hspelled]
    exact settled_reference (by rw [hrender, hspelled])
  | none =>
    have hsettle : e.settle store text s = (e.reader ⟨[]⟩).literal text s := by
      rw [settle, hspelled]
    rcases (e.reader ⟨[]⟩).literal_cases text hs with hl | ⟨n, hn, hl⟩ | ⟨b, -, hl⟩
    · rw [hsettle, hl]
      refine settled_of_hasText rfl rfl (encode_of_hasText rfl hs rfl) fun res hknows => ?_
      rw [decode_reread_stringTree text verbatim s hknows]
      split
      · rfl
      · rw [hsettle, hl]
    · have htext : n.text = text := Number.text_of_canonical? hn
      have hunpadded : Unpadded text := htext ▸ n.unpadded_text
      rw [hsettle, hl]
      refine settled_of_hasText rfl rfl (encode_of_hasText rfl hs rfl) fun res hknows => ?_
      rw [htext] at hknows ⊢
      rw [Tree.reread_text hunpadded] at hknows
      rw [Decoder.decode_reread_text s hunpadded, scalar_eq_settle hknows, hsettle, hl]
    · rw [hsettle, hl]
      exact settled_bool hs b

/-- What is read back of a scalar is settled, and it is no object or list. -/
theorem settled_of_scalar {v : Value} (hv : v.hasText = true) (ht : Tidy e store false (.value s) v)
    {path : Path} {t : Tree} (h : e.encode v s verbatim path = .ok t)
    (hknows : (e.reader res).Knows store t.reread) :
    ((e.reader res).decode t.reread s).isEmptyContainer = false ∧
      Settled e store s verbatim ((e.reader res).decode t.reread s) := by
  have hsettle : ∀ text, takesScalar (s.map e.registry.resolve) = true →
      (e.reader res).decode t.reread s = e.settle store text s →
      ((e.reader res).decode t.reread s).isEmptyContainer = false ∧
        Settled e store s verbatim ((e.reader res).decode t.reread s) := by
    intro text hs hdecode
    rw [hdecode]
    have htext : (e.settle store text s).hasText = true := hasText_settle text hs
    refine ⟨?_, settled_settle hs text⟩
    cases hvalue : e.settle store text s <;> rw [hvalue] at htext <;> simp_all [Value.hasText,
      Value.isEmptyContainer]
  cases v with
  | null => cases hv
  | list items => cases hv
  | object fields => cases hv
  | reference r =>
    cases ht with
    | reference _ found =>
      have hunpadded := (Convention.spelled?_eq_some found).2.1
      obtain rfl : .text (e.convention.render r) = t := Except.ok.inj (by rw [← h, encode])
      rw [Tree.reread_text hunpadded] at hknows
      rw [Decoder.decode_reread_text s hunpadded, scalar_eq_settle hknows, settle, found]
      exact ⟨rfl, settled_reference found⟩
  | bool b =>
    have hs := takesScalar_of_encode hv rfl h
    obtain rfl := Option.some.inj (encode_scalar (by simp [scalarTree]) h)
    rw [Decoder.decode_reread_boolean]
    exact ⟨rfl, settled_bool hs b⟩
  | number n =>
    have hs := takesScalar_of_encode hv rfl h
    obtain rfl := Option.some.inj (encode_scalar (by simp [scalarTree]) h)
    refine hsettle n.text hs ?_
    rw [Tree.reread_text n.unpadded_text] at hknows
    rw [Decoder.decode_reread_text s n.unpadded_text, scalar_eq_settle hknows]
  | string text =>
    have hs := takesScalar_of_encode hv rfl h
    obtain rfl := Option.some.inj (encode_scalar (by simp [scalarTree]) h)
    have hdecode := decode_reread_stringTree text verbatim s hknows
    split at hdecode
    · next hplain =>
      rw [hdecode]
      refine ⟨rfl, settled_of_hasText rfl rfl (encode_of_hasText rfl hs rfl) fun res' h' => ?_⟩
      rw [decode_reread_stringTree text verbatim s h', if_pos hplain]
    · exact hsettle text hs hdecode

/-! ## Lists -/

theorem isList_finishObject (case : Option String) (o : Option ObjectType) (collapse : Bool)
    (entries : Entries Tree) : (finishObject case o collapse entries).isList = false := by
  unfold finishObject
  split
  · rfl
  · rfl
  · split <;> rfl

/-- No value is encoded as a run of elements. -/
theorem isList_of_encode (hr : e.registry.WellKeyed) {v : Value} {path : Path} {t : Tree}
    (h : e.encode v s verbatim path = .ok t) : t.isList = false := by
  have hscalar : ∀ v : Value, e.scalarTree verbatim v ≠ none →
      e.encode v s verbatim path = .ok t → t.isList = false := by
    intro v hv h
    exact (writable_scalarTree (encode_scalar hv h)).2
  cases v with
  | null =>
    rw [encode] at h
    exact Except.ok.inj h ▸ rfl
  | list items =>
    obtain ⟨item, ts, -, -, rfl⟩ := encode_list_eq_ok_iff.1 h
    unfold Tree.array
    split <;> rfl
  | object fields =>
    have hshape := (encode_object_eq_ok_iff hr).1 h
    generalize s.map e.registry.resolve = resolved at hshape
    cases hshape with
    | plain _ _ => exact isList_finishObject _ _ _ _
    | blank _ _ => rfl
    | explicit _ _ _ _ => rfl
    | implied _ _ _ _ => rfl
  | _ => exact hscalar _ (by simp [scalarTree]) h

/-- The element of a list is decoded item by item. -/
theorem decode_encoded_list (hr : e.registry.WellKeyed) {item : Option Schema} {items : List Value}
    {ts : List Tree} (hts : List.Forall₂ (fun v t => ∃ p, e.encode v item false p = .ok t) items ts)
    (d : Decoder) (hint : Option Schema) : d.decode (Tree.array ts).reread hint =
      .list ((ts.map fun t => d.decode t.reread (d.itemHint hint)).filter d.keeps) := by
  refine Decoder.decode_reread_array (fun t ht => ?_) hint
  obtain ⟨v, -, p, hv⟩ := mem_of_forall₂_right hts ht
  exact isList_of_encode hr hv

theorem knows_of_mem_array {items : List Tree} (h : (e.reader res).Knows store (Tree.array items).reread)
    {t : Tree} (ht : t ∈ items) : (e.reader res).Knows store t.reread := by
  have hne : items ≠ [] := List.ne_nil_of_mem ht
  have hmem : t.reread ∈ items.map Tree.reread := List.mem_map_of_mem ht
  rw [Tree.reread_array hne] at h
  have hitems := h.array (Decoder.kind?_reread_typed _ _) (t := Tree.collect (items.map Tree.reread))
    (by simp [Entries.get?_cons, show Marker.kind ≠ Marker.item by decide])
  unfold Tree.collect at hitems
  split at hitems
  · next u hu =>
    rw [hu, List.mem_singleton] at hmem
    exact hmem ▸ hitems
  · exact hitems.of_mem_items hmem

theorem exists_forall₂ {α β : Type} {R : α → β → Prop} {as : List α}
    (h : ∀ a ∈ as, ∃ b, R a b) : ∃ bs, List.Forall₂ R as bs := by
  induction as with
  | nil => exact ⟨[], .nil⟩
  | cons a rest ih =>
    obtain ⟨b, hb⟩ := h a List.mem_cons_self
    obtain ⟨bs, hbs⟩ := ih fun c hc => h c (List.mem_cons_of_mem _ hc)
    exact ⟨b :: bs, .cons hb hbs⟩

theorem forall₂_and {α β : Type} {R S : α → β → Prop} {as : List α} {bs : List β}
    (hr : List.Forall₂ R as bs) (hs : List.Forall₂ S as bs) :
    List.Forall₂ (fun a b => R a b ∧ S a b) as bs := by
  induction hr with
  | nil => exact .nil
  | cons ha _ ih =>
    cases hs with
    | cons hb hs => exact .cons ⟨ha, hb⟩ (ih hs)

theorem forall₂_imp_of_mem {α β : Type} {R S : α → β → Prop} {as : List α} {bs : List β}
    (h : List.Forall₂ R as bs) (hrs : ∀ a b, a ∈ as → b ∈ bs → R a b → S a b) :
    List.Forall₂ S as bs := by
  induction h with
  | nil => exact .nil
  | cons ha _ ih =>
    exact .cons (hrs _ _ List.mem_cons_self List.mem_cons_self ha) (ih fun a b hma hmb =>
      hrs a b (List.mem_cons_of_mem _ hma) (List.mem_cons_of_mem _ hmb))

theorem encodeItems_of_forall₂ {item : Option Schema} {items : List Value} {ts : List Tree}
    (h : List.Forall₂ (fun v t => ∀ path, e.encode v item false path = .ok t) items ts) (path : Path)
    (i : Nat) : e.encodeItems items item path i = .ok ts := by
  induction h generalizing i with
  | nil => rfl
  | cons ht _ ih =>
    rw [encodeItems, ht, ih]
    rfl

/-- A list is settled if its items are. -/
theorem settled_list (hr : e.registry.WellKeyed) {item : Option Schema} {items : List Value}
    (hitem : itemType? (s.map e.registry.resolve) = some item)
    (h : ∀ v ∈ items, v.isEmptyContainer = false ∧ Settled e store item false v) :
    Settled e store s verbatim (.list items) := by
  obtain ⟨ts, hts⟩ := exists_forall₂ fun v hv => (h v hv).2
  have hencoded : List.Forall₂ (fun v t => ∀ path, e.encode v item false path = .ok t) items ts :=
    hts.imp fun v t ht => ht.1
  have hlist : ∀ t ∈ ts, t.isList = false := by
    intro t ht
    obtain ⟨v, -, hv⟩ := mem_of_forall₂_right hencoded ht
    exact isList_of_encode hr (hv .root)
  refine ⟨.array ts, fun path => encode_list_eq_ok_iff.2 ⟨item, ts, hitem,
    encodeItems_of_forall₂ hencoded path 0, rfl⟩, fun res hknows => ?_⟩
  have heach : List.Forall₂ (fun v t => v.isEmptyContainer = false ∧
      (v.same ((e.reader res).decode t.reread item) = true ↔ t.casesUnpadded = true)) items ts :=
    forall₂_imp_of_mem hts fun v t hv ht hvt =>
      ⟨(h v hv).1, hvt.2 res (knows_of_mem_array hknows ht)⟩
  rw [Decoder.decode_reread_array hlist, Decoder.itemHint_of_itemType? hitem, Value.same, Value.sameItems_iff,
    Tree.casesUnpadded_array_iff]
  constructor
  · intro hsame
    have hlength := hsame.length_eq
    have hall : (ts.map fun t => (e.reader res).decode t.reread item).filter (e.reader res).keeps =
        ts.map fun t => (e.reader res).decode t.reread item := by
      refine List.filter_sublist.eq_of_length ?_
      rw [← hlength, hts.length_eq, List.length_map]
    rw [hall, List.forall₂_map_right_iff] at hsame
    intro t ht
    obtain ⟨v, -, hv, -, hiff⟩ := mem_of_forall₂_right (forall₂_and hsame heach) ht
    exact hiff.1 hv
  · intro hcases
    have hsame : List.Forall₂ (fun v t => v.isEmptyContainer = false ∧
        v.same ((e.reader res).decode t.reread item) = true) items ts :=
      forall₂_imp_of_mem heach fun v t _ ht hvt => ⟨hvt.1, hvt.2.2 (hcases t ht)⟩
    have hall : (ts.map fun t => (e.reader res).decode t.reread item).filter (e.reader res).keeps =
        ts.map fun t => (e.reader res).decode t.reread item := by
      refine List.filter_eq_self.2 fun w hw => ?_
      obtain ⟨t, ht, rfl⟩ := List.mem_map.1 hw
      obtain ⟨v, -, hne, hv⟩ := mem_of_forall₂_right hsame ht
      rw [Value.isEmptyContainer_of_same hv] at hne
      simp [Decoder.keeps, hne]
    rw [hall, List.forall₂_map_right_iff]
    exact hsame.imp fun v t ht => ht.2

end TaggedMarkup
