import TaggedMarkup.Proofs.Reference.Resolutions
import TaggedMarkup.Reference.Collection
/-!
# Two spellings of a reference

A reference is read in its dotted spelling and held as its full target. Reading a spelling and
showing its entry are inverse, and so are building a target and recognising it, so that a reference
which resolved is written as the text it was read from.
-/
namespace TaggedMarkup

/-- One or more word characters. -/
def IsWord (s : String) : Prop := s ≠ "" ∧ ∀ c ∈ s.toList, Text.isWord c = true

namespace Convention

variable {c : Convention} {store : Store} {text : String} {p q : EntryPath} {r : Reference}

/-- A text is the dotted spelling of an entry: two words around a point, of which the first starts as
collection ids do. -/
structure Spells (c : Convention) (text : String) (p : EntryPath) : Prop where
  text_eq : text = p.collection ++ "." ++ p.entry
  collection : IsWord p.collection
  entry : IsWord p.entry
  stem : c.collectionStem.toList <+: p.collection.toList

theorem isWordRun_iff {s : String} : isWordRun s.toList = true ↔ IsWord s := by
  rw [isWordRun, Bool.and_eq_true, List.all_eq_true, IsWord, Bool.not_eq_true',
    List.isEmpty_eq_false_iff, ne_eq, String.toList_eq_nil_iff]

theorem admits_iff {s : String} : c.admits s.toList = true ↔ c.collectionStem.toList <+: s.toList :=
  List.isPrefixOf_iff_prefix

theorem point_not_mem {s : String} (h : IsWord s) : '.' ∉ s.toList := fun hm =>
  absurd (h.2 '.' hm) (by rw [Text.isWord_point]; decide)

theorem parse?_eq_some (h : c.parse? text = some p) :
    p.display = text ∧ isWordRun p.collection.toList = true ∧ isWordRun p.entry.toList = true ∧
      c.admits p.collection.toList = true := by
  unfold parse? at h
  split at h
  · next collection entry hsplit =>
    split at h
    · next hwords =>
      obtain rfl := Option.some.inj h
      simp only [Bool.and_eq_true] at hwords
      refine ⟨?_, by simpa using hwords.1.1, by simpa using hwords.1.2, by simpa using hwords.2⟩
      have htext : ['.'].intercalate (text.toList.splitOn '.') = text.toList :=
        List.intercalate_splitOn '.'
      rw [hsplit] at htext
      rw [EntryPath.display, ← String.toList_inj, String.toList_append, String.toList_append,
        ← htext]
      simp [List.intercalate]
    · cases h
  · cases h

theorem Spells.splitOn (h : c.Spells text p) :
    text.toList.splitOn '.' = [p.collection.toList, p.entry.toList] := by
  have htext : text.toList = ['.'].intercalate [p.collection.toList, p.entry.toList] := by
    rw [h.text_eq, String.toList_append, String.toList_append]
    simp [List.intercalate]
  rw [htext]
  refine List.splitOn_intercalate '.' (fun piece hpiece => ?_) (List.cons_ne_nil _ _)
  rcases List.mem_pair.1 hpiece with rfl | rfl
  · exact point_not_mem h.collection
  · exact point_not_mem h.entry

theorem parse?_eq_some_iff : c.parse? text = some p ↔ c.Spells text p := by
  constructor
  · intro h
    obtain ⟨hdisplay, hcollection, hentry, hadmits⟩ := parse?_eq_some h
    exact ⟨hdisplay.symm, isWordRun_iff.1 hcollection, isWordRun_iff.1 hentry, admits_iff.1 hadmits⟩
  · intro h
    simp only [parse?, h.splitOn]
    rw [isWordRun_iff.2 h.collection, isWordRun_iff.2 h.entry, admits_iff.2 h.stem]
    simp

theorem recognize?_eq_some_iff {target : Path} : c.recognize? target = some p ↔
    target = c.target p ∧ c.collectionStem.toList <+: p.collection.toList := by
  constructor
  · intro h
    obtain ⟨segments⟩ := target
    unfold recognize? at h
    split at h
    · next hsegments =>
      split at h
      · next hnames =>
        obtain ⟨rfl, rfl, hadmits⟩ := hnames
        obtain rfl := Option.some.inj h
        exact ⟨congrArg Path.mk hsegments, admits_iff.1 hadmits⟩
      · cases h
    · cases h
  · rintro ⟨rfl, hstem⟩
    exact recognize?_target (admits_iff.2 hstem)

/-- A text is read as an entry exactly if it is its dotted spelling, which the entry shows and the
reference to it is written as. A path is recognised as an entry exactly if it is its target and the
collection is named as collections are. So what resolved is written as it was read, and no two entries
have one target. -/
theorem spellings_inverse (c : Convention) :
    (∀ text p, c.parse? text = some p ↔ c.Spells text p) ∧
    (∀ text p, c.Spells text p → p.display = text ∧ c.recognize? (c.target p) = some p ∧
      c.render ⟨c.target p⟩ = text) ∧
    (∀ target p, c.recognize? target = some p ↔
      target = c.target p ∧ c.collectionStem.toList <+: p.collection.toList) ∧
    (∀ store text p r, c.parse? text = some p → c.resolve? store p = some r → c.render r = text) ∧
    ∀ p q, c.target p = c.target q → p = q := by
  have hwritten : ∀ text p, c.Spells text p → c.render (c.reference p) = text := fun text p h =>
    (render_reference (admits_iff.2 h.stem)).trans h.text_eq.symm
  refine ⟨fun text p => parse?_eq_some_iff, fun text p h => ⟨h.text_eq.symm, ?_, hwritten text p h⟩,
    fun target p => recognize?_eq_some_iff, fun store text p r hp hr => ?_,
    fun p q h => reference_injective (congrArg Reference.mk h)⟩
  · exact recognize?_eq_some_iff.2 ⟨rfl, h.stem⟩
  · rw [eq_reference_of_resolve? hr]
    exact hwritten text p (parse?_eq_some_iff.1 hp)

/-- Every word names a collection. -/
def lenient : Convention := ⟨"suite", "texts", ""⟩

theorem spellings_inverse_lenient :
    lenient.Spells "größe_1.ü" ⟨"größe_1", "ü"⟩ ∧
    lenient.recognize? ⟨["suite", "texts", "instance", "größe_1", "strings", "string", "ü",
      "scriptid"]⟩ = some ⟨"größe_1", "ü"⟩ ∧
    ∃ r, lenient.resolve? (.insert .empty (lenient.collection "größe_1" ["ü"])) ⟨"größe_1", "ü"⟩ =
      some r ∧ lenient.render r = "größe_1.ü" := by
  obtain ⟨hparse, -, hrecognize, hresolved, -⟩ := spellings_inverse lenient
  have hread : lenient.parse? "größe_1.ü" = some ⟨"größe_1", "ü"⟩ := by decide +kernel
  have hfound : lenient.resolve? (.insert .empty (lenient.collection "größe_1" ["ü"]))
      ⟨"größe_1", "ü"⟩ = some (lenient.reference ⟨"größe_1", "ü"⟩) :=
    lenient.resolve?_collection (List.mem_singleton_self "ü")
  exact ⟨(hparse _ _).1 hread, (hrecognize _ _).2 ⟨rfl, List.nil_prefix⟩, _, hfound,
    hresolved _ _ _ _ hread hfound⟩

end Convention

end TaggedMarkup
