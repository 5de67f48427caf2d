import TaggedMarkup.Profile
import TaggedMarkup.Proofs.Cycle.Steady
import TaggedMarkup.Proofs.Markup.RoundTrip
/-!
# Whole definitions as texts

Reading and writing of a definition, taken apart into their steps. A text that was written for a
root element is decoded as what is read back of the element, if it is within the limits.
-/
namespace TaggedMarkup

open Encoder Markup TaggedMarkup.Tree

theorem Encoder.isList_of_encodeRoot {e : Encoder} (hr : e.registry.WellKeyed) {v : Value}
    {schema : Schema} {t : Tree} (h : e.encodeRoot v schema = .ok t) : t.isList = false := by
  cases (encodeRoot_eq_ok_iff hr).1 h with
  | body _ _ _ => exact isList_finishObject _ _ _ _
  | nested _ h => exact isList_of_encode hr h

namespace Profile

variable {p : Profile} {store : Store} {kind text : String} {v : Value}

/-- What is decoded of a root element. -/
def decodeRoot (p : Profile) (store : Store) (schema : Schema) (root : Tree) : Decoded :=
  let resolutions := p.convention.resolveAll store (root.candidates p.convention)
  ⟨(p.decoder resolutions).decodeDocument root schema, resolutions.unresolved⟩

theorem readMarkup_eq_ok_iff {document : Tree} :
    p.readMarkup text = .ok document ↔ read p.settings.maxDepth text = .ok document := by
  unfold readMarkup
  cases read p.settings.maxDepth text <;> simp [Except.mapError]

theorem decode_eq_ok_iff {d : Decoded} : p.decode store kind text = .ok d ↔
    ∃ schema document root, p.registry.schemaFor? kind = some schema ∧
      text.utf8ByteSize ≤ p.settings.maxDocumentBytes ∧
      read p.settings.maxDepth text = .ok document ∧ documentRoot document = .ok root ∧
      d = p.decodeRoot store schema root := by
  unfold decode
  cases hschema : p.registry.schemaFor? kind with
  | none => simp
  | some schema =>
    by_cases hsize : p.settings.maxDocumentBytes < text.utf8ByteSize
    · simp [hsize, Nat.not_le.2 hsize]
    · simp only [hsize, if_false, bind_eq_ok_iff, readMarkup_eq_ok_iff, pure_eq_ok_iff]
      constructor
      · rintro ⟨document, hdocument, root, hroot, rfl⟩
        exact ⟨schema, document, root, rfl, Nat.not_lt.1 hsize, hdocument, hroot, rfl⟩
      · rintro ⟨_, document, root, hs, -, hdocument, hroot, rfl⟩
        obtain rfl := Option.some.inj hs
        exact ⟨document, hdocument, root, hroot, rfl⟩

theorem encodeTree_eq_ok_iff {document : Tree} : p.encodeTree kind v = .ok document ↔
    ∃ schema t, p.registry.schemaFor? kind = some schema ∧
      (ofRegistry p.registry p.convention).encodeRoot v schema = .ok t ∧
      document = .map [(Marker.root, t)] := by
  unfold encodeTree encodeDocument
  cases p.registry.schemaFor? kind with
  | none => simp
  | some schema =>
    simp only [bind_eq_ok_iff, pure_eq_ok_iff]
    constructor
    · rintro ⟨t, ht, rfl⟩
      exact ⟨schema, t, rfl, ht, rfl⟩
    · rintro ⟨_, t, hs, ht, rfl⟩
      obtain rfl := Option.some.inj hs
      exact ⟨t, ht, rfl⟩

theorem encode_eq_ok_iff : p.encode kind v = .ok text ↔
    ∃ document, p.encodeTree kind v = .ok document ∧ text = write p.layout document := by
  rw [encode, map_eq_ok_iff]
  simp only [eq_comm]

theorem reread_document (t : Tree) :
    (Tree.map [(Marker.root, t)]).reread = .map [(Marker.root, t.reread)] := by
  refine normal_trimmed_document (fun key u hu => ?_) (by simp)
  obtain rfl := (Prod.mk.inj (List.mem_singleton.1 hu)).1
  decide

theorem documentRoot_reread {t : Tree} (h : t.isList = false) :
    documentRoot (Tree.map [(Marker.root, t)]).reread = .ok t.reread := by
  have hlist := isList_of_reread h
  rw [reread_document, documentRoot, asEntries?]
  simp only [Entries.get?_cons, if_true]
  cases ht : t.reread with
  | list items =>
    rw [ht] at hlist
    cases hlist
  | _ => rfl

/-- What is decoded of the text of a root element. -/
theorem eq_of_decode_write {t : Tree} (ht : t.Writable) (hl : t.isList = false) {schema : Schema}
    (hschema : p.registry.schemaFor? kind = some schema) {d : Decoded}
    (h : p.decode store kind (write p.layout (.map [(Marker.root, t)])) = .ok d) :
    d = p.decodeRoot store schema t.reread := by
  obtain ⟨schema', document, root, hschema', -, hread, hroot, rfl⟩ := decode_eq_ok_iff.1 h
  cases hschema.symm.trans hschema'
  rw [eq_of_read_write p.layout (isDocument_root ht) hread] at hroot
  cases (documentRoot_reread hl).symm.trans hroot
  rfl

/-- A text within the limits is decoded. -/
theorem decode_write {t : Tree} (ht : t.Writable) (hl : t.isList = false) {schema : Schema}
    (hschema : p.registry.schemaFor? kind = some schema)
    (hsize : (write p.layout (.map [(Marker.root, t)])).utf8ByteSize ≤ p.settings.maxDocumentBytes)
    (hdepth : (Tree.map [(Marker.root, t)]).height ≤ p.settings.maxDepth) :
    p.decode store kind (write p.layout (.map [(Marker.root, t)])) =
      .ok (p.decodeRoot store schema t.reread) :=
  decode_eq_ok_iff.2 ⟨schema, _, t.reread, hschema, hsize,
    read_write_trimmed p.layout (isDocument_root ht) hdepth, documentRoot_reread hl, rfl⟩

/-- What is under the root element can be written, where attributes have names. -/
theorem writable_of_encodeTree {document : Tree} (hr : p.registry.WellKeyed)
    (hn : p.registry.isNamed = true) (hk : v.Keyed) (hv : v.isNamed = true)
    (h : p.encodeTree kind v = .ok document) :
    ∃ schema root, p.registry.schemaFor? kind = some schema ∧
      document = .map [(Marker.root, root)] ∧ root.Writable ∧ root.isList = false := by
  obtain ⟨schema, root, hschema, hroot, rfl⟩ := encodeTree_eq_ok_iff.1 h
  have hf : (ofRegistry p.registry p.convention).FillsWritable :=
    fillsWritable_ofRegistry hr hn p.convention
  exact ⟨schema, root, hschema, rfl, writable_of_encodeRoot hf hr hk hv hroot,
    isList_of_encodeRoot (e := ofRegistry p.registry p.convention) hr hroot⟩

end Profile

end TaggedMarkup
