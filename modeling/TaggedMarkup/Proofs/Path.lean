import TaggedMarkup.Path
import TaggedMarkup.Proofs.Keyed
/-!
# Paths and their texts

A path of segments can be read from the text that messages show of it, unless it is the root. Names
of elements and list positions are segments, and a position is found under its own text.
-/
namespace TaggedMarkup

namespace Path

theorem checkSegment_of_isSegment {s : String} (h : IsSegment s) :
    checkSegment s.toList = .ok s := by
  have hempty : s.toList.isEmpty = false := by simpa using h.1
  simp [checkSegment, hempty, h.2]

theorem checkSegments_of_isSegment {segments : List String} (h : ∀ s ∈ segments, IsSegment s) :
    checkSegments (segments.map String.toList) = .ok segments := by
  induction segments with
  | nil => rfl
  | cons s rest ih =>
    rw [List.map_cons, checkSegments, checkSegment_of_isSegment (h s List.mem_cons_self),
      ih fun t ht => h t (List.mem_cons_of_mem _ ht)]
    rfl

/-- No segment has a point in it, so the points of a text stand between its segments. -/
theorem splitOn_text {p : Path} (hp : p ≠ root) (h : ∀ s ∈ p.segments, IsSegment s) :
    p.text.toList.splitOn '.' = p.segments.map String.toList := by
  have hne : p.segments.map String.toList ≠ [] := fun hnil =>
    hp (congrArg Path.mk (List.map_eq_nil_iff.1 hnil))
  rw [text, String.toList_ofList]
  refine List.splitOn_intercalate '.' (fun piece hpiece hm => ?_) hne
  obtain ⟨s, hs, rfl⟩ := List.mem_map.1 hpiece
  exact absurd (List.all_eq_true.1 (h s hs).2 '.' hm) (by decide +kernel)

theorem read_text {p : Path} (h : ∀ s ∈ p.segments, IsSegment s) : read p.text = .ok p := by
  by_cases hp : p = root
  · rw [hp]
    rfl
  · have hsplit := splitOn_text hp h
    have htext : p.text.isEmpty = false := by
      rw [Bool.eq_false_iff]
      intro hempty
      -- The only piece of an empty text is empty, which no segment is.
      rw [String.isEmpty_iff.1 hempty] at hsplit
      have hpiece : [] ∈ p.segments.map String.toList := by
        rw [← hsplit]
        exact List.mem_singleton_self []
      obtain ⟨s, hs, hnil⟩ := List.mem_map.1 hpiece
      exact (h s hs).1 (String.toList_eq_nil_iff.1 hnil)
    rw [read, htext, hsplit, checkSegments_of_isSegment h]
    rfl

theorem read_display {p : Path} (hp : p ≠ root) (h : ∀ s ∈ p.segments, IsSegment s) :
    read p.display = .ok p := by
  have hdisplay : p.display = p.text := by
    rw [display, if_neg fun hnil => hp (congrArg Path.mk (List.isEmpty_iff.1 hnil))]
  rw [hdisplay, read_text h]

theorem isSegmentChar_of_isNameChar {c : Char} (h : isNameChar c = true) :
    isSegmentChar c = true := by
  simp only [isNameChar, isSegmentChar, Bool.or_eq_true] at h ⊢
  exact h.imp_left (Or.imp_left Text.isAlphanumeric_of_isAlphanum)

theorem isSegment_of_isElementName {s : String} (h : isElementName s = true) : IsSegment s := by
  unfold isElementName at h
  split at h
  · cases h
  · next c rest hs =>
    obtain ⟨hc, hrest⟩ := Bool.and_eq_true_iff.1 h
    have hname : isNameChar c = true := by
      rw [isNameChar, Char.isAlphanum]
      rcases Bool.or_eq_true_iff.1 hc with hc | hc <;> simp [hc]
    refine ⟨fun hempty => by simp [hempty] at hs, ?_⟩
    rw [hs, List.all_cons, isSegmentChar_of_isNameChar hname, Bool.true_and, List.all_eq_true]
    exact fun d hd => isSegmentChar_of_isNameChar (List.all_eq_true.1 hrest d hd)

theorem isSegment_toString (i : Nat) : IsSegment (toString i) := by
  have htext : (toString i).toList = Nat.toDigits 10 i := Nat.toList_repr
  refine ⟨fun hempty => ?_, List.all_eq_true.2 fun c hc => isSegmentChar_of_isNameChar ?_⟩
  · rw [hempty] at htext
    exact Nat.toDigits_ne_nil htext.symm
  · have hdigit : c.isDigit = true :=
      Nat.isDigit_of_mem_toDigits (by decide) (Nat.le_refl 10) (htext ▸ hc)
    simp [isNameChar, Char.isAlphanum, hdigit]

end Path

namespace Value

theorem readPosition?_toString (i : Nat) : readPosition? (toString i) = some i := by
  have hdigits : (Nat.toDigits 10 i).all Char.isDigit = true :=
    List.all_eq_true.2 fun c hc => Nat.isDigit_of_mem_toDigits (by decide) (Nat.le_refl 10) hc
  have htext : (toString i).toList = Nat.toDigits 10 i := Nat.toList_repr
  rw [readPosition?, htext]
  split
  · next rest hplus =>
    rw [hplus] at hdigits
    exact absurd hdigits (by simp)
  · rw [if_pos ⟨Nat.toDigits_ne_nil, hdigits⟩,
      Nat.ofDigitChars_toDigits (by decide) (Nat.le_refl 10)]

theorem position_inj {i j : Nat} (h : toString i = toString j) : i = j :=
  Option.some.inj (by rw [← readPosition?_toString, h, readPosition?_toString])

end Value

end TaggedMarkup
