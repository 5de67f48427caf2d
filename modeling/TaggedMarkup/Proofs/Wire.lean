import TaggedMarkup.Proofs.Decoding.Lookups
import TaggedMarkup.Proofs.Reference.Spellings
import TaggedMarkup.Proofs.Tree.NormalForm
import TaggedMarkup.Text.Blank
/-!
# Texts of scalars and references

Reading cuts the blanks at the ends of a text. No number, truth value or resolved reference has any
there, and a string that has is written verbatim, so no text of a scalar is changed on its way.
-/
namespace TaggedMarkup

open Markup

theorem isBlank_of_isSpace {c : Char} (h : isSpace c = true) : Text.isBlank c = true := by
  simp only [isSpace, Bool.or_eq_true, beq_iff_eq] at h
  rcases h with ((rfl | rfl) | rfl) | rfl <;> decide

theorem isWord_of_isSpace {c : Char} (h : isSpace c = true) : Text.isWord c = false := by
  simp only [isSpace, Bool.or_eq_true, beq_iff_eq] at h
  rcases h with ((rfl | rfl) | rfl) | rfl <;> decide

theorem isBlank_of_isDigit {c : Char} (h : c.isDigit = true) : Text.isBlank c = false := by
  have hdigit : 48 ≤ c.toNat ∧ c.toNat ≤ 57 := by
    simpa [Char.isDigit, UInt32.le_iff_toNat_le] using h
  have hapart : ∀ r ∈ Text.blankRanges.toList, r.2 < 48 ∨ 57 < r.1 := by decide
  rw [← Bool.not_eq_true, Text.isBlank, Text.Ranges.covers_iff]
  rintro ⟨r, hr, hlo, hhi⟩
  rcases hapart r hr with hbefore | hbehind <;> omega

/-- A text that is not padded by any blank is not padded by those of markup. -/
theorem unpadded_of_isPadded {s : String} (h : Text.isPadded s = false) : Unpadded s := by
  rw [Text.isPadded, Bool.or_eq_false_iff] at h
  have hends : ∀ o : Option Char, o.any Text.isBlank = false → ∀ c ∈ o, isSpace c = false := by
    rintro o ho c rfl
    by_contra hc
    rw [Option.any_some, isBlank_of_isSpace (by simpa using hc)] at ho
    cases ho
  exact ⟨hends _ h.1, hends _ h.2⟩

theorem unpadded_of_forall {s : String} (h : ∀ c ∈ s.toList, isSpace c = false) : Unpadded s :=
  ⟨fun c hc => h c (List.mem_of_mem_head? hc), fun c hc => h c (List.mem_of_mem_getLast? hc)⟩

/-! ## Numbers and truth values -/

namespace Number

theorem isBlank_of_mem_toDigits {n : Nat} {c : Char} (h : c ∈ Nat.toDigits 10 n) :
    Text.isBlank c = false := by
  exact isBlank_of_isDigit (Nat.isDigit_of_mem_toDigits (by decide) (by decide) h)

theorem isBlank_of_mem_zeros {n : Nat} {c : Char} (h : c ∈ Binary64.zeros n) :
    Text.isBlank c = false := by
  rw [List.eq_of_mem_replicate h]
  decide

/-- Every character is a digit, or one of the signs, points and marks between digits. -/
theorem isBlank_of_mem_positional {digits : List Char} {place : Int}
    (hd : ∀ c ∈ digits, Text.isBlank c = false) {c : Char} (h : c ∈ Binary64.positional digits place) :
    Text.isBlank c = false := by
  unfold Binary64.positional at h
  split at h
  · simp only [List.mem_append, List.mem_cons] at h
    rcases h with (h | h) | rfl | h
    · exact hd c (List.mem_of_mem_take h)
    · exact isBlank_of_mem_zeros h
    · decide
    · split at h
      · rw [List.mem_singleton.1 h]
        decide
      · exact hd c (List.mem_of_mem_drop h)
  · simp only [List.mem_append, List.mem_cons] at h
    rcases h with (rfl | rfl | h) | h
    · decide
    · decide
    · exact isBlank_of_mem_zeros h
    · exact hd c h

theorem isBlank_of_mem_scientific {digits : List Char} {place : Int}
    (hd : ∀ c ∈ digits, Text.isBlank c = false) {c : Char} (h : c ∈ Binary64.scientific digits place) :
    Text.isBlank c = false := by
  unfold Binary64.scientific at h
  simp only [List.mem_append, List.mem_cons] at h
  rcases h with (h | h) | rfl | rfl | h
  · exact hd c (List.mem_of_mem_take h)
  · split at h
    · cases h
    · rcases List.mem_cons.1 h with rfl | h
      · decide
      · exact hd c (List.mem_of_mem_drop h)
  · decide
  · split <;> decide
  · exact isBlank_of_mem_toDigits h

theorem isBlank_of_mem_magnitudeText {x : Binary64} {c : Char} (h : c ∈ x.magnitudeText) :
    Text.isBlank c = false := by
  have hdigits : ∀ c ∈ Binary64.dropTrailingZeros (Nat.toDigits 10 x.shortest.coefficient),
      Text.isBlank c = false := by
    intro c hc
    have hsub := (List.dropWhile_sublist (p := fun c => decide (c = '0'))
      (l := (Nat.toDigits 10 x.shortest.coefficient).reverse)).subset (List.mem_reverse.1 hc)
    exact isBlank_of_mem_toDigits (List.mem_reverse.1 hsub)
  unfold Binary64.magnitudeText at h
  split at h
  · rcases List.mem_cons.1 h with rfl | h
    · decide
    · rcases List.mem_cons.1 h with rfl | h
      · decide
      · rw [List.mem_singleton.1 h]
        decide
  · dsimp only at h
    split at h
    · exact isBlank_of_mem_positional hdigits h
    · exact isBlank_of_mem_scientific hdigits h

theorem isBlank_of_mem_text {n : Number} {c : Char} (hc : c ∈ n.text.toList) :
    Text.isBlank c = false := by
  have hsign : ∀ digits : List Char, (∀ c ∈ digits, Text.isBlank c = false) →
      ∀ c ∈ '-' :: digits, Text.isBlank c = false := by
    intro digits hd c hc
    rcases List.mem_cons.1 hc with rfl | hc
    · decide
    · exact hd c hc
  cases n with
  | integer n _ =>
    simp only [text, integerText, String.toList_ofList] at hc
    split at hc
    · exact hsign _ (fun c => isBlank_of_mem_toDigits) c hc
    · exact isBlank_of_mem_toDigits hc
  | real x =>
    simp only [text, Binary64.text, String.toList_ofList] at hc
    split at hc
    · exact hsign _ (fun c => isBlank_of_mem_magnitudeText) c hc
    · exact isBlank_of_mem_magnitudeText hc

theorem isPadded_text (n : Number) : Text.isPadded n.text = false := by
  have hends : ∀ o : Option Char, (∀ c ∈ o, c ∈ n.text.toList) → o.any Text.isBlank = false := by
    rintro (_ | c) h
    · rfl
    · exact isBlank_of_mem_text (h c rfl)
  exact Bool.or_eq_false_iff.2
    ⟨hends _ fun _ => List.mem_of_mem_head?, hends _ fun _ => List.mem_of_mem_getLast?⟩

theorem unpadded_text (n : Number) : Unpadded n.text := unpadded_of_isPadded n.isPadded_text

theorem canonical?_eq_none_of_isPadded {text : String} (h : Text.isPadded text = true) :
    canonical? text = none := by
  by_contra hne
  obtain ⟨n, hn⟩ := Option.ne_none_iff_exists'.1 hne
  rw [← text_of_canonical? hn, n.isPadded_text] at h
  cases h

theorem positional_ne_nil (digits : List Char) (place : Int) :
    Binary64.positional digits place ≠ [] := by
  unfold Binary64.positional
  split <;> simp

theorem scientific_ne_nil (digits : List Char) (place : Int) :
    Binary64.scientific digits place ≠ [] := by
  simp [Binary64.scientific]

theorem magnitudeText_ne_nil (x : Binary64) : x.magnitudeText ≠ [] := by
  unfold Binary64.magnitudeText
  split
  · simp
  · dsimp only
    split
    · exact positional_ne_nil _ _
    · exact scientific_ne_nil _ _

theorem text_ne_empty (n : Number) : n.text ≠ "" := by
  intro h
  have hnil := congrArg String.toList h
  cases n with
  | integer n _ =>
    rw [text, integerText, String.toList_ofList] at hnil
    split at hnil
    · cases hnil
    · exact Nat.toDigits_ne_nil hnil
  | real x =>
    rw [text, Binary64.text, String.toList_ofList] at hnil
    split at hnil
    · cases hnil
    · exact magnitudeText_ne_nil x hnil

end Number

theorem unpadded_boolText (b : Bool) : Unpadded (boolText b) := by cases b <;> decide

theorem canonicalBool?_eq_none_of_isPadded {text : String} (h : Text.isPadded text = true) :
    canonicalBool? text = none := by
  by_contra hne
  obtain ⟨b, hb⟩ := Option.ne_none_iff_exists'.1 hne
  have htext : Text.isPadded (boolText b) = false := by cases b <;> decide
  rw [canonicalBool?_eq_some_iff.1 hb, htext] at h
  cases h

/-! ## References -/

namespace Convention

variable {c : Convention} {store : Store} {text : String} {p : EntryPath} {r : Reference}

/-- A reference that was found in a store is written as the text that spelt it. -/
theorem spelled?_eq_some (h : c.spelled? store text = some r) :
    c.render r = text ∧ Unpadded text ∧ text ≠ "" := by
  obtain ⟨p, hp, hr⟩ := Option.bind_eq_some_iff.1 h
  obtain ⟨hdisplay, hcollection, hentry, hadmits⟩ := parse?_eq_some hp
  have hrender : c.render r = text := by
    rw [eq_reference_of_resolve? hr, render_reference hadmits, hdisplay]
  have hspace : ∀ c ∈ text.toList, isSpace c = false := by
    intro ch hch
    rw [← hdisplay, EntryPath.display, String.toList_append, String.toList_append] at hch
    by_contra hblank
    have hblank : isSpace ch = true := by simpa using hblank
    have hword := isWord_of_isSpace hblank
    have hrun : ∀ s : List Char, isWordRun s = true → ch ∉ s := by
      intro s hs hmem
      rw [isWordRun, Bool.and_eq_true] at hs
      have hall := List.all_eq_true.1 hs.2 ch hmem
      rw [hword] at hall
      cases hall
    rcases List.mem_append.1 hch with hch | hch
    · rcases List.mem_append.1 hch with hch | hch
      · exact hrun _ hcollection hch
      · have hpoint : ch = '.' := by simpa using hch
        subst hpoint
        exact absurd hblank (by decide)
    · exact hrun _ hentry hch
  refine ⟨hrender, unpadded_of_forall hspace, ?_⟩
  rintro rfl
  have hlength := congrArg String.length hdisplay
  simp [EntryPath.display] at hlength

end Convention

end TaggedMarkup
