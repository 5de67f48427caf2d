import TaggedMarkup.Proofs.Decoding.Tidy
/-!
# Leaves in a cycle of encoding and decoding

What is read back of a null, a list or a scalar. A text that has been read once is read again as the
same value: `settle` is that value, and `decode_scalarTree_settle` the statement.
-/
namespace TaggedMarkup

open Encoder Markup

namespace Tree

theorem reread_text {t : String} (h : Unpadded t) : (Tree.text t).reread = .text t := by
  rw [reread, trimmed, normal, trimText_of_unpadded h]

theorem reread_verbatim (t : String) : (Tree.verbatim t).reread = .text t := by
  have htext : readText [(Marker.verbatim, .text t)] = t := by
    rw [readText, content_trimmedEntries]
    simp [entryText?, Entries.get?_cons, asText?, show Marker.verbatim ≠ Marker.text by decide]
  have hparts : hasParts [(Marker.verbatim, .text t)] = false := by
    simp [hasParts, show Marker.isAttribute Marker.verbatim = false by decide,
      show isChild Marker.verbatim = false by decide]
  rw [verbatim, reread_map, hparts, htext]
  rfl

theorem reread_null : null.reread = null := rfl

end Tree

namespace Decoder

variable {d : Decoder} (hint : Option Schema)

theorem decode_reread_text {t : String} (h : Unpadded t) :
    d.decode (Tree.text t).reread hint = d.scalar t hint := by
  rw [Tree.reread_text h, decode]

theorem decode_reread_verbatim (t : String) :
    d.decode (Tree.verbatim t).reread hint = d.scalar t hint := by
  rw [Tree.reread_verbatim, decode]

theorem reread_typed (kind : Kind) (t : String) :
    (Tree.typed kind t).reread = .map ((Marker.kind, .text kind.text) ::
      if (trimText t).isEmpty then [] else [(Marker.text, .text (trimText t))]) := by
  have htext : Tree.readText [(Marker.kind, .text kind.text), (Marker.text, .text t)] =
      trimText t := by
    rw [Tree.readText, Tree.content_trimmedEntries]
    simp [entryText?, Entries.get?_cons, Tree.asText?,
      show Marker.kind ≠ Marker.text by decide, show Marker.kind ≠ Marker.verbatim by decide,
      show Marker.text ≠ Marker.verbatim by decide]
  have hattribute : Marker.isAttribute Marker.kind = true := by decide
  have htext' : Marker.isAttribute Marker.text = false := by decide
  have hkind : isChild Marker.kind = false := by decide
  have hchild : isChild Marker.text = false := by decide
  rw [Tree.typed, Tree.reread_map, if_pos (by simp [Tree.hasParts, hattribute]), Tree.rereadEntries,
    htext]
  simp [Tree.attributes, hattribute, htext', hkind, hchild]

theorem kindText_reread_typed (kind : Kind) (t : String) :
    kindText ((Marker.kind, .text kind.text) ::
      if (trimText t).isEmpty then [] else [(Marker.text, .text (trimText t))]) = trimText t := by
  have hne : Marker.kind ≠ Marker.text := by decide
  unfold kindText
  split
  · next h =>
    have hempty : trimText t = "" := by simpa using h
    simp [Entries.get?_cons, hne, hempty]
  · simp [Entries.get?_cons, hne, Tree.asText?]

theorem kind?_reread_typed (kind : Kind) (more : Entries Tree) :
    Tree.kind? (.map ((Marker.kind, .text kind.text) :: more)) = some kind := by
  simp [Tree.kind?, Tree.kindMarker?, Tree.marker?, Tree.asEntries?, Tree.asText?,
    Entries.get?_cons, Kind.read?_text]

theorem decode_reread_string (t : String) :
    d.decode (Tree.typed .string t).reread hint = .string (trimText t) := by
  rw [reread_typed, decode, kind?_reread_typed, kindText_reread_typed]

theorem decode_reread_boolean (b : Bool) :
    d.decode (Tree.typed .boolean (boolText b)).reread hint = .bool b := by
  rw [reread_typed, decode, kind?_reread_typed, kindText_reread_typed,
    trimText_of_unpadded (unpadded_boolText b), bool, canonicalBool?_eq_some_iff.2 rfl]
  rfl

theorem decode_reread_null : d.decode Tree.null.reread hint = .object [] := by
  rw [Tree.reread_null, Tree.null, decode, kind?_reread_typed]

end Decoder

namespace Tree

theorem isList_of_reread {t : Tree} (h : t.isList = false) : t.reread.isList = false :=
  isList_normal_trimmed h

theorem elements_of_isList {t : Tree} (h : t.isList = false) : t.elements = [t] := by
  cases t with
  | list items => cases h
  | _ => rfl

theorem elements_collect {items : List Tree} (h : ∀ t ∈ items, t.isList = false) :
    (collect items).elements = items := by
  unfold collect
  split
  · next t => exact elements_of_isList (h t (List.mem_singleton_self t))
  · rfl

theorem reread_list (items : List Tree) : (Tree.list items).reread = collect (items.map reread) := by
  rw [reread, trimmed, normal, normalItems_eq, trimmedItems_eq, List.map_map]
  rfl

theorem reread_array {items : List Tree} (h : items ≠ []) :
    (Tree.array items).reread = .map [(Marker.kind, .text Kind.array.text),
      (Marker.item, collect (items.map reread))] := by
  have htext : readText [(Marker.kind, .text Kind.array.text), (Marker.item, .list items)] = "" := by
    rw [readText, content_trimmedEntries]
    simp [entryText?, Entries.get?_cons, show Marker.kind ≠ Marker.text by decide,
      show Marker.kind ≠ Marker.verbatim by decide, show Marker.item ≠ Marker.text by decide,
      show Marker.item ≠ Marker.verbatim by decide]
  have hattribute : Marker.isAttribute Marker.kind = true := by decide
  have hitem : Marker.isAttribute Marker.item = false := by decide
  have hkind : isChild Marker.kind = false := by decide
  have hchild : isChild Marker.item = true := by decide
  rw [array, if_neg (by simpa using h), reread_map, if_pos (by simp [hasParts, hattribute]),
    rereadEntries, htext, ← reread_list]
  simp [attributes, hattribute, hitem, hkind, hchild]

end Tree

namespace Decoder

variable {d : Decoder}

/-- The items of a list element are decoded one by one. -/
theorem decode_reread_array {items : List Tree} (h : ∀ t ∈ items, t.isList = false)
    (hint : Option Schema) :
    d.decode (Tree.array items).reread hint =
      .list ((items.map fun t => d.decode t.reread (d.itemHint hint)).filter d.keeps) := by
  by_cases hne : items = []
  · subst hne
    have hreread : (Tree.array []).reread = .map [(Marker.kind, .text Kind.array.text)] := rfl
    rw [hreread, decode, kind?_reread_typed, decodeItem_eq]
    simp [Entries.get?_cons, show Marker.kind ≠ Marker.item by decide]
  · have hitems : ∀ t ∈ items.map Tree.reread, t.isList = false := by
      intro t ht
      obtain ⟨u, hu, rfl⟩ := List.mem_map.1 ht
      exact Tree.isList_of_reread (h u hu)
    rw [Tree.reread_array hne, decode, kind?_reread_typed, decodeItem_eq]
    simp only [Entries.get?_cons, if_neg (show Marker.kind ≠ Marker.item by decide), if_true,
      Option.elim_some, Tree.elements_collect hitems, List.map_map]
    rfl

end Decoder

/-! ## Strings -/

/-- Without the mark of a string its element holds the text as it is. -/
theorem Tree.reread_stringTree {text : String} {verbatim : Bool}
    (h : ¬ (verbatim = false ∧ Text.isPadded text = false ∧
      ((Number.canonical? text).isSome || (canonicalBool? text).isSome) = true)) :
    (stringTree text verbatim).reread = .text text := by
  unfold stringTree
  split
  · exact Tree.reread_verbatim text
  · next hplain =>
    obtain ⟨hverbatim, hpadded⟩ : verbatim = false ∧ Text.isPadded text = false := by
      simpa using hplain
    rw [if_neg fun hc => h ⟨hverbatim, hpadded, hc⟩,
      Tree.reread_text (unpadded_of_isPadded hpadded)]

/-- What is read back of a string is the string if it was marked, and else what its text reads as. -/
theorem Decoder.decode_stringTree {d : Decoder} (text : String) (verbatim : Bool)
    (hint : Option Schema) :
    d.decode (stringTree text verbatim).reread hint =
      if verbatim = false ∧ Text.isPadded text = false ∧
        ((Number.canonical? text).isSome || (canonicalBool? text).isSome) = true
      then .string text else d.scalar text hint := by
  split
  · next h =>
    obtain ⟨rfl, hpadded, hc⟩ := h
    rw [stringTree, if_neg (by simp [hpadded]), if_pos hc, decode_reread_string,
      trimText_of_unpadded (unpadded_of_isPadded hpadded)]
  · next h => rw [Tree.reread_stringTree h, decode]

/-! ## Scalars -/

section

variable {e : Encoder} {store : Store} {res : Resolutions} {s : Option Schema}

/-- The value of a text under a hint, given what the store holds. -/
def Encoder.settle (e : Encoder) (store : Store) (text : String) (hint : Option Schema) : Value :=
  match e.convention.spelled? store text with
  | some r => .reference r
  | none => (e.reader ⟨[]⟩).literal text hint

theorem scalar_eq_settle {text : String} (h : (e.reader res).Knows store (.text text))
    (hint : Option Schema) : (e.reader res).scalar text hint = e.settle store text hint := by
  unfold Decoder.scalar settle
  rw [h.reference?]
  change (match e.convention.spelled? store text with | some r => _ | none => _) = _
  cases e.convention.spelled? store text <;> rfl

theorem hasText_settle (text : String) (h : takesScalar (s.map e.registry.resolve) = true) :
    (e.settle store text s).hasText = true := by
  unfold settle
  split
  · rfl
  · exact (e.reader ⟨[]⟩).hasText_literal text h

theorem wireText?_settle (text : String) (h : takesScalar (s.map e.registry.resolve) = true) :
    e.wireText? (e.settle store text s) = some text := by
  unfold settle
  split
  · next r hr => exact congrArg some (Convention.spelled?_eq_some hr).1
  · exact (e.reader ⟨[]⟩).wireText?_literal text h

theorem encode_of_hasText {v : Value} (hv : v.hasText = true)
    (h : takesScalar (s.map e.registry.resolve) = true) {verbatim : Bool} {t : Tree}
    (ht : e.scalarTree verbatim v = some t) (path : Path) :
    e.encode v s verbatim path = .ok t := by
  have hexpect : ∀ v : Value, expectScalar (s.map e.registry.resolve) v path = .ok () := fun v =>
    expectScalar_eq_ok_iff.2 h
  cases v with
  | reference r =>
    rw [encode]
    exact congrArg Except.ok (Option.some.inj ht)
  | null => cases hv
  | list items => cases hv
  | object fields => cases hv
  | _ =>
    rw [encode, hexpect]
    exact congrArg Except.ok (Option.some.inj ht)

theorem takesScalar_of_encode {v : Value} (hv : v.hasText = true) (hr : v.asReference? = none)
    {verbatim : Bool} {path : Path} {t : Tree} (h : e.encode v s verbatim path = .ok t) :
    takesScalar (s.map e.registry.resolve) = true := by
  cases v with
  | reference r => cases hr
  | null => cases hv
  | list items => cases hv
  | object fields => cases hv
  | _ =>
    rw [encode] at h
    simp only [bind_eq_ok_iff, expectScalar_eq_ok_iff] at h
    exact h.choose_spec.1

/-- What is read back of a string is the string, or what its text settles as. -/
theorem decode_reread_stringTree (text : String) (verbatim : Bool) (hint : Option Schema)
    (h : (e.reader res).Knows store (stringTree text verbatim).reread) :
    (e.reader res).decode (stringTree text verbatim).reread hint =
      if verbatim = false ∧ Text.isPadded text = false ∧
        ((Number.canonical? text).isSome || (canonicalBool? text).isSome) = true
      then .string text else e.settle store text hint := by
  rw [Decoder.decode_stringTree]
  split
  · rfl
  · next hmarked =>
    rw [Tree.reread_stringTree hmarked] at h
    exact scalar_eq_settle h hint

end

end TaggedMarkup
