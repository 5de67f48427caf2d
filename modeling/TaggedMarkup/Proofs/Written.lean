import TaggedMarkup.Proofs.Cycle.Convergence
import TaggedMarkup.Proofs.Encoding.Coverage
import TaggedMarkup.Proofs.Encoding.Forms
/-!
# What is read of a written definition

Reading shows no marker that was not written, and it accepts whatever was written within the limits.
Both rest on names: those of elements are checked before they are written and those of attributes are
not, so an attribute can carry a marker or break the tag that it stands in.
-/
namespace TaggedMarkup

open Encoder Markup

namespace Tree

/-- Every element that is seen is what was read of a written one. -/
def Seen (written seen : Tree) : Prop :=
  ∀ es, seen = .map es →
    ∃ entries, Within (.map entries) written ∧ seen = (Tree.map entries).reread

theorem Seen.of_part {t u seen : Tree} (h : Seen t seen) (hp : Part t u) : Seen u seen := by
  intro es hs
  obtain ⟨entries, hwithin, heq⟩ := h es hs
  exact ⟨entries, hwithin.tail hp, heq⟩

theorem everywhere_seen_text (t : Tree) (s : String) : Everywhere (Seen t) (.text s) :=
  everywhere_text fun _ h => by cases h

theorem Writable.everywhere_seen {t : Tree} (h : t.Writable) : Everywhere (Seen t) t.reread := by
  induction h with
  | text s => exact everywhere_seen_text _ _
  | @list items _ _ _ ih =>
    have heach : ∀ u ∈ items.map reread, Everywhere (Seen (.list items)) u := by
      intro u hu
      obtain ⟨t, ht, rfl⟩ := List.mem_map.1 hu
      exact fun s hs => (ih t ht s hs).of_part (.item ht)
    rw [reread_list]
    unfold collect
    split
    · next u hu => exact heach u (hu ▸ List.mem_singleton_self u)
    · exact everywhere_list (fun _ h => by cases h) heach
  | @map entries _ attributes _ _ _ ih =>
    rw [reread_map]
    split
    · next hparts =>
      have hself : Seen (.map entries) (.map (rereadEntries entries)) := by
        intro es _
        exact ⟨entries, .refl, by rw [reread_map, if_pos hparts]⟩
      refine everywhere_map hself fun a ha => ?_
      obtain ⟨key, u⟩ := a
      rcases cases_of_mem_rereadEntries ha with ⟨hattribute, hm⟩ | ⟨hchild, v, hv, rfl⟩ | ⟨-, rfl, -⟩
      · obtain ⟨-, s, rfl⟩ := attributes key u hm hattribute
        exact everywhere_seen_text _ _
      · exact fun s hs => (ih key v hv hchild s hs).of_part (.entry hv)
      · exact everywhere_seen_text _ _
    · exact everywhere_seen_text _ _

theorem kindMarker?_reread (entries : Entries Tree) :
    Tree.kind? (.map (rereadEntries entries)) = Tree.kind? (.map entries) := by
  have hget : Entries.get? (rereadEntries entries) Marker.kind =
      Entries.get? entries Marker.kind := by
    rw [get?_rereadEntries, if_pos (by decide)]
  unfold kind? kindMarker? marker?
  simp only [asEntries?, Option.bind_some, hget]

/-- A case is read without the blanks at its ends. -/
theorem Form.Fits.variantMarker?_reread {form : Form} {entries : Entries Tree}
    (h : form.Fits entries) : Tree.variantMarker? (.map (rereadEntries entries)) =
      (Tree.variantMarker? (.map entries)).map trimText := by
  rw [Decoder.variantMarker?_reread]
  by_cases hform : form = .object
  · subst hform
    unfold variantMarker? marker?
    simp only [asEntries?, Option.bind_some]
    cases ht : Entries.get? entries Marker.variant with
    | none => rfl
    | some t =>
      obtain ⟨case, rfl⟩ := h.1.variant t (Entries.mem_of_get?_eq_some ht)
      rfl
  · have hnot := h.variant_not_mem hform
    rw [variantMarker?_of_not_mem hnot, Entries.get?_eq_none_iff.2 hnot]
    rfl

end Tree

namespace Profile

open TaggedMarkup.Tree

variable {p : Profile} {kind : String} {v : Value} {document : Tree}

/-- Documents of one kind, whose definitions have no schema. -/
def notes : Profile := { registry := { documents := [("note", .unknown)] } }

/-! ## Markers -/

/-- What stands under the root element can be told apart, and where attributes have names the text
of it shows the markers of the tree and no others, the blanks at the ends of a case left out. -/
theorem encodeTree_isSyntax (hr : p.registry.WellKeyed) (hk : v.Keyed)
    (h : p.encodeTree kind v = .ok document) :
    ∃ root, document = .map [(Marker.root, root)] ∧
      IsSyntax p.registry p.convention root ∧
      (p.registry.isNamed = true → v.isNamed = true → document.height ≤ p.settings.maxDepth →
        ∃ seen, read p.settings.maxDepth (write p.layout document) =
            .ok (.map [(Marker.root, seen)]) ∧
          ∀ es, Within (.map es) seen → ∃ entries, Within (.map entries) root ∧
            Tree.kind? (.map es) = Tree.kind? (.map entries) ∧
            Tree.variantMarker? (.map es) =
              (Tree.variantMarker? (.map entries)).map trimText) := by
  obtain ⟨schema, root, -, hroot, rfl⟩ := encodeTree_eq_ok_iff.1 h
  have hsyntax : IsSyntax p.registry p.convention root := isSyntax_of_encodeRoot hr hk hroot
  refine ⟨root, rfl, hsyntax, fun hn hv hdepth => ?_⟩
  obtain ⟨_, _, -, hdocument, hwritable, -⟩ := writable_of_encodeTree hr hn hk hv h
  obtain rfl := (Prod.mk.inj (List.cons.inj (Tree.map.inj hdocument)).1).2
  have hread := read_write_trimmed p.layout (isDocument_root hwritable) hdepth
  refine ⟨root.reread, hread.trans (congrArg _ (reread_document root)), fun es hes => ?_⟩
  obtain ⟨entries, hwithin, heq⟩ := hwritable.everywhere_seen _ hes es rfl
  obtain ⟨form, hform, -⟩ := hsyntax.forms entries hwithin
  obtain rfl : es = rereadEntries entries := by
    rw [reread_map] at heq
    split at heq
    · exact Tree.map.inj heq
    · cases heq
  exact ⟨entries, hwithin, kindMarker?_reread entries, hform.variantMarker?_reread⟩

theorem encodeTree_isSyntax_note : ∃ document root seen,
    notes.encodeTree "note" (.object [("xmlType", .string "memo"), ("@_type", .string "page"),
      ("tags", .list [.null, .string "5"]), ("#text", .string " a ")]) = .ok document ∧
    document = .map [(Marker.root, root)] ∧ IsSyntax notes.registry notes.convention root ∧
    read 256 (write notes.layout document) = .ok (.map [(Marker.root, seen)]) ∧
    ∀ es, Within (.map es) seen → ∃ entries, Within (.map entries) root ∧
      Tree.kind? (.map es) = Tree.kind? (.map entries) ∧
      Tree.variantMarker? (.map es) = (Tree.variantMarker? (.map entries)).map trimText := by
  have hcheck : ((notes.encodeTree "note" (.object [("xmlType", .string "memo"),
      ("@_type", .string "page"), ("tags", .list [.null, .string "5"]),
      ("#text", .string " a ")])).toOption.any (isWithin notes.settings)) = true := by
    decide +kernel
  obtain ⟨document, h, hwithin⟩ := (Option.any_eq_true _ _).1 hcheck
  rw [← eq_ok_iff_toOption] at h
  obtain ⟨root, hdocument, hsyntax, hseen⟩ := encodeTree_isSyntax
    (Registry.wellKeyed_of_isWellKeyed (by decide)) (Value.keyed_of_isKeyed _ (by decide)) h
  obtain ⟨seen, hread, hmarkers⟩ := hseen (by decide) (by decide) (le_of_isWithin hwithin).2
  exact ⟨document, root, seen, h, hdocument, hsyntax, hread, hmarkers⟩

/-- The name of an attribute can hold another one, which then marks a kind that the tree does not. -/
theorem attribute_name_marks_null :
    ∃ document seen,
      notes.encodeTree "note" (.object [("x", .object [("@_a='' type", .string "null")])]) =
        .ok document ∧
      read 256 (write notes.layout document) = .ok seen ∧
      ((document.lookup? Marker.root).bind fun t => t.lookup? "x").bind Tree.kind? = none ∧
      ((seen.lookup? Marker.root).bind fun t => t.lookup? "x").bind Tree.kind? = some .null := by
  have hcheck : ((notes.encodeTree "note" (.object [("x", .object [("@_a='' type",
      .string "null")])])).toOption.any fun document =>
        (read 256 (write notes.layout document)).toOption.any fun seen =>
          (((document.lookup? Marker.root).bind fun t => t.lookup? "x").bind Tree.kind?).isNone &&
          ((seen.lookup? Marker.root).bind fun t => t.lookup? "x").bind Tree.kind? == some Kind.null) =
      true := by decide +kernel
  obtain ⟨document, hdocument, hcheck⟩ := (Option.any_eq_true _ _).1 hcheck
  obtain ⟨seen, hseen, hcheck⟩ := (Option.any_eq_true _ _).1 hcheck
  rw [← eq_ok_iff_toOption] at hdocument hseen
  obtain ⟨hnone, hnull⟩ := Bool.and_eq_true_iff.1 hcheck
  exact ⟨document, seen, hdocument, hseen, by simpa using hnone, by simpa using hnull⟩

/-! ## Acceptance -/

/-- Where attributes have names a text within the limits is accepted. -/
theorem decode_encode (hr : p.registry.WellKeyed) (hn : p.registry.isNamed = true) (hk : v.Keyed)
    (hv : v.isNamed = true) {text : String} (h : p.encode kind v = .ok text)
    (hsize : text.utf8ByteSize ≤ p.settings.maxDocumentBytes)
    (hdepth : ∀ document, p.encodeTree kind v = .ok document →
      document.height ≤ p.settings.maxDepth) (store : Store) :
    ∃ d, p.decode store kind text = .ok d := by
  obtain ⟨document, hdocument, rfl⟩ := encode_eq_ok_iff.1 h
  obtain ⟨schema, root, hschema, rfl, hwritable, hlist⟩ :=
    writable_of_encodeTree hr hn hk hv hdocument
  exact ⟨_, decode_write hwritable hlist hschema hsize (hdepth _ hdocument)⟩

theorem decode_encode_note : ∃ text d,
    notes.encode "note" (.object [("x", .object [("@_a", .string "<1>"), ("#text", .string " & ")])]) =
      .ok text ∧ notes.decode .empty "note" text = .ok d := by
  have hcheck : ((notes.encodeTree "note" (.object [("x", .object [("@_a", .string "<1>"),
      ("#text", .string " & ")])])).toOption.any (isWithin notes.settings)) = true := by
    decide +kernel
  obtain ⟨document, hdocument, hwithin⟩ := (Option.any_eq_true _ _).1 hcheck
  rw [← eq_ok_iff_toOption] at hdocument
  obtain ⟨hsize, hdepth⟩ := le_of_isWithin hwithin
  have htext := encode_eq_ok_iff.2 ⟨document, hdocument, rfl⟩
  obtain ⟨d, hd⟩ := decode_encode (p := notes) (Registry.wellKeyed_of_isWellKeyed (by decide))
    (by decide) (Value.keyed_of_isKeyed _ (by decide)) (by decide) htext hsize
    (fun other hother => by rwa [← Except.ok.inj (hdocument.symm.trans hother)]) .empty
  exact ⟨_, d, htext, hd⟩

/-- A blank in the name of an attribute breaks the tag. -/
theorem attribute_name_breaks_tag :
    ∃ text, notes.encode "note" (.object [("x", .object [("@_a b", .string "1")])]) = .ok text ∧
      text.utf8ByteSize ≤ 10485760 ∧ ∀ d, notes.decode .empty "note" text ≠ .ok d := by
  have hcheck : ((notes.encode "note" (.object [("x", .object [("@_a b",
      .string "1")])])).toOption.any fun text => decide (text.utf8ByteSize ≤ 10485760) &&
        (notes.decode .empty "note" text).toOption.isNone) = true := by decide +kernel
  obtain ⟨text, htext, hcheck⟩ := (Option.any_eq_true _ _).1 hcheck
  rw [← eq_ok_iff_toOption] at htext
  obtain ⟨hsize, hnone⟩ := Bool.and_eq_true_iff.1 hcheck
  refine ⟨text, htext, of_decide_eq_true hsize, fun d hd => ?_⟩
  rw [hd] at hnone
  cases hnone

end Profile

end TaggedMarkup
