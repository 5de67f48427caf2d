import TaggedMarkup.Proofs.Markup.Alike
import TaggedMarkup.Proofs.Reencoding
import TaggedMarkup.Proofs.Stability.Legible
import TaggedMarkup.Proofs.Stability.Stable
/-!
# Scalars that are written again

What is read of the element of a scalar is written as that element, if the scalar is legible and its
element stable. A null marker is read as an object without fields, and written again where such an
object is blank.
-/
namespace TaggedMarkup

open Encoder Markup TaggedMarkup.Tree

/-- What is read of an element is written in its place as an element like it. Nothing empty is
dropped. -/
def Rewrites (e : Encoder) (res : Resolutions) (s : Option Schema) (verbatim : Bool) (t : Tree) :
    Prop :=
  ∀ path, ∃ u, e.encode ((e.decoder res true).decode t.reread s) s verbatim path = .ok u ∧ Alike u t

/-- An element in which nothing is taken for something else. -/
structure Holds (e : Encoder) (store : Store) (res : Resolutions) (s : Option Schema) (t : Tree) :
    Prop where
  stable : t.isStable e store s = true
  cases : t.casesUnpadded = true
  known : (e.reader res).Knows store t.reread

variable {e : Encoder} {store : Store} {res : Resolutions} {s : Option Schema} {verbatim : Bool}
  {text : String} {t : Tree}

/-! ## Texts -/

/-- A number that stands for itself. -/
theorem settle_of_canonical? (hspelled : e.convention.spelled? store text = none)
    (hs : takesScalar (s.map e.registry.resolve) = true)
    (hwords : takesWords (s.map e.registry.resolve) = false) {n : Number}
    (hn : Number.canonical? text = some n) : e.settle store text s = .number n := by
  have hliteral : e.settle store text s = (e.reader ⟨[]⟩).literal text s := by
    rw [Encoder.settle, hspelled]
  have hresolve : (e.reader ⟨[]⟩).registry.resolve = e.registry.resolve := rfl
  rw [hliteral, Decoder.literal, hresolve]
  generalize s.map e.registry.resolve = resolved at hs hwords
  have hnatural : Decoder.natural text = .number n := by rw [Decoder.natural, hn]
  cases resolved with
  | none => exact hnatural
  | some resolved =>
    cases resolved with
    | primitive kind =>
      cases kind with
      | unknown => exact hnatural
      | number =>
        change Decoder.number text = _
        rw [Decoder.number, hn]
        rfl
      | string | boolean => cases hwords
    | _ => cases hs

/-- A text that reads as itself. -/
theorem settle_of_words (hspelled : e.convention.spelled? store text = none)
    (hs : takesScalar (s.map e.registry.resolve) = true)
    (htext : s.map e.registry.resolve = some (.primitive .string) ∨
      Number.canonical? text = none ∧ canonicalBool? text = none) :
    e.settle store text s = .string text := by
  have hliteral : e.settle store text s = (e.reader ⟨[]⟩).literal text s := by
    rw [Encoder.settle, hspelled]
  rw [hliteral]
  rcases htext with hstring | ⟨hn, hb⟩
  · have hstring : s.map (e.reader ⟨[]⟩).registry.resolve = some (.primitive .string) := hstring
    rw [Decoder.literal, hstring]
  · rcases (e.reader ⟨[]⟩).literal_cases text hs with hl | ⟨n, hn', -⟩ | ⟨b, hb', -⟩
    · exact hl
    · rw [hn] at hn'
      cases hn'
    · rw [hb] at hb'
      cases hb'

/-- An element that is read as the text settles, and is the element of what it settles as. -/
theorem rewrites_of_settle (hs : takesScalar (s.map e.registry.resolve) = true)
    (hdecode : (e.decoder res true).decode t.reread s = e.settle store text s)
    (ht : e.scalarTree verbatim (e.settle store text s) = some t) : Rewrites e res s verbatim t := by
  intro path
  rw [hdecode]
  exact ⟨t, encode_of_hasText (hasText_settle text hs) hs ht path, .refl t⟩

theorem decode_text_eq_settle (hu : Unpadded text)
    (hknows : (e.reader res).Knows store (Tree.text text).reread) :
    (e.decoder res true).decode (Tree.text text).reread s = e.settle store text s := by
  rw [Tree.reread_text hu] at hknows
  rw [Decoder.decode_reread_text s hu]
  exact scalar_eq_settle hknows s

/-- Plain text, unless it is a string that should have been marked. -/
theorem rewrites_text (hs : takesScalar (s.map e.registry.resolve) = true) (hu : Unpadded text)
    (h : Holds e store res s (.text text))
    (hstring : Number.canonical? text = none →
      verbatim = false ∧ Text.isPadded text = false ∧ canonicalBool? text = none) :
    Rewrites e res s verbatim (.text text) := by
  refine rewrites_of_settle hs (decode_text_eq_settle hu h.known) ?_
  cases hspelled : e.convention.spelled? store text with
  | some q =>
    rw [Encoder.settle, hspelled, scalarTree, (Convention.spelled?_eq_some hspelled).1]
  | none =>
    cases hn : Number.canonical? text with
    | some n =>
      have hwords : takesWords (s.map e.registry.resolve) = false := by
        simpa [Tree.isStable, hn] using h.stable
      rw [settle_of_canonical? hspelled hs hwords hn, scalarTree, Number.text_of_canonical? hn]
    | none =>
      obtain ⟨hv, hp, hb⟩ := hstring hn
      rw [settle_of_words hspelled hs (.inr ⟨hn, hb⟩), scalarTree, stringTree, hv, hp, hn, hb]
      rfl

/-- Verbatim text, which is padded or stands where verbatim text is declared. -/
theorem rewrites_verbatim (hs : takesScalar (s.map e.registry.resolve) = true)
    (h : Holds e store res s (.verbatim text))
    (hstring : verbatim = true ∧ s.map e.registry.resolve = some (.primitive .string) ∨
      Text.isPadded text = true) : Rewrites e res s verbatim (.verbatim text) := by
  have hspelled : e.convention.spelled? store text = none := by
    have hkind : Tree.kind? (.map [(Marker.verbatim, .text text)]) = none := rfl
    have hparts : hasParts [(Marker.verbatim, .text text)] = false := by
      simp [hasParts, show Marker.isAttribute Marker.verbatim = false by decide,
        show isChild Marker.verbatim = false by decide]
    have hplain := (isStable_map hkind h.stable).1
    simpa [isPlain, hparts, entryText?, Entries.get?_cons, asText?,
      show Marker.verbatim ≠ Marker.text by decide] using hplain
  have hknown := h.known
  rw [Tree.reread_verbatim] at hknown
  have hdecode : (e.decoder res true).decode (Tree.verbatim text).reread s =
      e.settle store text s := by
    rw [Decoder.decode_reread_verbatim]
    exact scalar_eq_settle hknown s
  refine rewrites_of_settle hs hdecode ?_
  have hwords : s.map e.registry.resolve = some (.primitive .string) ∨
      Number.canonical? text = none ∧ canonicalBool? text = none :=
    hstring.imp And.right fun hp =>
      ⟨Number.canonical?_eq_none_of_isPadded hp, canonicalBool?_eq_none_of_isPadded hp⟩
  have hquoted : (verbatim || Text.isPadded text) = true := by
    rcases hstring with ⟨rfl, -⟩ | hp
    · rfl
    · rw [hp, Bool.or_true]
  rw [settle_of_words hspelled hs hwords, scalarTree, stringTree, if_pos hquoted]

/-! ## Scalars -/

/-- A reference is found again wherever it stands. -/
theorem rewrites_reference {q : Reference} (hq : e.convention.locates store q = true)
    (hknows : (e.reader res).Knows store (Tree.text (e.convention.render q)).reread) :
    Rewrites e res s verbatim (.text (e.convention.render q)) := by
  obtain ⟨found, hfound⟩ := Option.isSome_iff_exists.1 hq
  obtain ⟨hrender, hu, -⟩ := Convention.spelled?_eq_some hfound
  intro path
  rw [decode_text_eq_settle hu hknows, Encoder.settle, hfound, ← hrender]
  exact ⟨_, by rw [encode], .refl _⟩

/-- What is read of the element of a legible scalar is written as that element. -/
theorem rewrites_scalar {v : Value} (hv : v.hasText = true) {path : Path}
    (hencode : e.encode v s verbatim path = .ok t)
    (hlegible : v.isLegible (e.convention.locates store) = true)
    (hverbatim : verbatim = true → s.map e.registry.resolve = some (.primitive .string))
    (h : Holds e store res s t) : Rewrites e res s verbatim t := by
  have htree : e.scalarTree verbatim v = some t := by
    refine encode_scalar (fun hnone => ?_) hencode
    cases v with
    | null | list _ | object _ => cases hv
    | _ => cases hnone
  cases v with
  | null | list _ | object _ => cases hv
  | reference q =>
    obtain rfl := Option.some.inj htree
    exact rewrites_reference hlegible h.known
  | bool b =>
    obtain rfl := Option.some.inj htree
    intro path
    rw [Decoder.decode_reread_boolean]
    exact ⟨_, encode_of_hasText rfl (takesScalar_of_encode rfl rfl hencode) rfl path, .refl _⟩
  | number n =>
    have hs := takesScalar_of_encode rfl rfl hencode
    obtain rfl := Option.some.inj htree
    obtain ⟨m, hm⟩ := Option.isSome_iff_exists.1 hlegible
    refine rewrites_text hs n.unpadded_text h fun hnone => ?_
    rw [hm] at hnone
    cases hnone
  | string text =>
    have hs := takesScalar_of_encode rfl rfl hencode
    obtain rfl := Option.some.inj htree
    unfold stringTree at h ⊢
    split at h
    · next hquoted =>
      rw [if_pos hquoted]
      refine rewrites_verbatim hs h ?_
      rcases Bool.or_eq_true_iff.1 hquoted with hv | hp
      · exact .inl ⟨hv, hverbatim hv⟩
      · exact .inr hp
    · next hquoted =>
      obtain ⟨hv, hp⟩ : verbatim = false ∧ Text.isPadded text = false := by simpa using hquoted
      have hu := unpadded_of_isPadded hp
      rw [if_neg hquoted]
      split at h
      · next hmarked =>
        rw [if_pos hmarked]
        intro path
        rw [Decoder.decode_reread_string, trimText_of_unpadded hu]
        refine ⟨_, encode_of_hasText rfl hs ?_ path, .refl _⟩
        rw [scalarTree, stringTree, if_neg hquoted, if_pos hmarked]
      · next hmarked =>
        rw [if_neg hmarked]
        refine rewrites_text hs hu h fun _ => ⟨hv, hp, ?_⟩
        simpa using (not_or.1 (mt Bool.or_eq_true_iff.2 hmarked)).2

/-! ## Null markers -/

/-- A blank object is written as the null marker and nothing else. -/
theorem eq_null_of_kind? (hr : e.registry.WellKeyed) {path : Path}
    (ht : e.encode (.object []) s verbatim path = .ok t) (hk : t.kind? = some .null) :
    t = .null := by
  have hfree : ∀ entries : Entries Tree, t = .map entries → ¬ Decoder.KindFree entries := by
    rintro entries rfl hfree
    rw [kind?_of_kindFree hfree] at hk
    cases hk
  have hshape := (encode_object_eq_ok_iff hr).1 ht
  generalize hresolved : s.map e.registry.resolve = resolved at hshape
  cases hshape with
  | @plain _ o entries hplain hl =>
    rw [← hresolved] at hplain
    have ho : ∀ u, o = some u → u.WellKeyed := fun u hu =>
      hr.objects u (mem_types_of_plainType? hplain hu)
    have hentries : Decoder.KindFree entries := fun u hu => hl.kind ho hu
    have hd : Entries.Distinct ([] : Entries Value) := List.nodup_nil
    have hfinished := finished_finishObject ho hd hl (untypedCase? [] o) true
    generalize finishObject (untypedCase? [] o) o true entries = t at hfree hfinished
    generalize (untypedCase? [] o).or (o.bind ObjectType.tag) = case at hfinished
    cases hfinished with
    | blank _ => rfl
    | bare _ => exact absurd hentries (hfree _ rfl)
    | case hm => exact absurd (hm.kindFree hentries) (hfree _ rfl)
  | blank _ _ => rfl
  | explicit _ hf _ _ => cases hf
  | implied hf _ _ _ => exact absurd rfl hf

/-- A null marker where an object without fields is blank. -/
theorem rewrites_null (hr : e.registry.WellKeyed) (hf : e.FillsAlike)
    (h : Holds e store res s .null) : Rewrites e res s verbatim .null := by
  have hblank : e.leavesBlank s = true := by
    have hstable := h.stable
    rw [Tree.null, Tree.isStable, kind?_cons] at hstable
    exact hstable
  obtain ⟨t, ht, hkind⟩ := (Option.any_eq_true _ _).1 hblank
  have hencode := eq_ok_iff_toOption.2 ht
  have hnull := eq_null_of_kind? hr hencode (by simpa using hkind)
  intro path
  rw [Decoder.decode_reread_null]
  refine ⟨.null, ?_, .refl _⟩
  have hverbatim : e.encode (.object []) s verbatim path = e.encode (.object []) s false path := by
    rw [encode, encode]
  rw [hverbatim, ← hnull]
  exact encode_at hf hencode path

end TaggedMarkup
