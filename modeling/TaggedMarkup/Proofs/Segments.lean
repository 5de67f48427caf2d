import TaggedMarkup.Proofs.Path
/-!
# Pieces between points

A text is read as a path by its pieces: it is one if they are all segments, and else the first that is
none is reported. The path is written as the text again, and a path of segments is read from each text
that is shown of it, so two such paths have no text in common.
-/
namespace TaggedMarkup.Path

/-- The pieces of a text between its points. -/
structure Pieces (text : String) (pieces : List String) : Prop where
  ne_nil : pieces ≠ []
  text_eq : text = ".".intercalate pieces
  point_not_mem : ∀ piece ∈ pieces, '.' ∉ piece.toList

instance (s : String) : Decidable (IsSegment s) := inferInstanceAs (Decidable (_ ∧ _))

/-- What is wrong with a piece that is no segment. -/
inductive PieceFault : String → PathError → Prop
  | empty : PieceFault "" .emptySegment
  | invalid {piece : String} (ne_empty : piece ≠ "") (no_segment : ¬ IsSegment piece) :
      PieceFault piece (.invalidSegment piece)

/-- The fault of the first piece that is no segment. -/
def FirstFault (pieces : List String) (e : PathError) : Prop :=
  ∃ good bad rest, pieces = good ++ bad :: rest ∧ (∀ s ∈ good, IsSegment s) ∧ PieceFault bad e

/-- Only segments. -/
def Valid (p : Path) : Prop := ∀ s ∈ p.segments, IsSegment s

/-- The texts that a path is shown by. -/
def IsTextOf (text : String) (p : Path) : Prop := text = p.text ∨ text = p.display

variable {text : String} {pieces : List String} {p q : Path} {e : PathError}

theorem text_eq_intercalate (p : Path) : p.text = ".".intercalate p.segments := by
  rw [← String.toList_inj, String.toList_intercalate, Path.text, String.toList_ofList]
  rfl

/-! ## Pieces -/

theorem point_not_mem_of_mem_splitOn {cs piece : List Char} (h : piece ∈ cs.splitOn '.') :
    '.' ∉ piece := by
  induction cs generalizing piece with
  | nil =>
    rw [List.splitOn_nil, List.mem_singleton] at h
    simp [h]
  | cons c cs ih =>
    rw [List.splitOn_cons_eq_if_modifyHead] at h
    split at h
    · rcases List.mem_cons.1 h with rfl | h
      · simp
      · exact ih h
    · next hc =>
      obtain ⟨first, rest, hsplit⟩ := List.exists_cons_of_ne_nil (List.splitOn_ne_nil '.' cs)
      rw [hsplit] at h ih
      rcases List.mem_cons.1 h with rfl | h
      · have hne : '.' ≠ c := fun heq => hc (beq_iff_eq.2 heq.symm)
        simp [hne, ih List.mem_cons_self]
      · exact ih (List.mem_cons_of_mem _ h)

theorem exists_pieces (text : String) : ∃ pieces, Pieces text pieces := by
  refine ⟨(text.toList.splitOn '.').map String.ofList, ?_, ?_, fun piece hpiece => ?_⟩
  · simp [List.splitOn_ne_nil]
  · have hlist : ((text.toList.splitOn '.').map String.ofList).map String.toList =
        text.toList.splitOn '.' := by
      simp [Function.comp_def]
    rw [← String.toList_inj, String.toList_intercalate, hlist]
    exact (List.intercalate_splitOn '.').symm
  · obtain ⟨chars, hchars, rfl⟩ := List.mem_map.1 hpiece
    rw [String.toList_ofList]
    exact point_not_mem_of_mem_splitOn hchars

theorem Pieces.splitOn (h : Pieces text pieces) :
    text.toList.splitOn '.' = pieces.map String.toList := by
  rw [h.text_eq, String.toList_intercalate]
  refine List.splitOn_intercalate '.' (fun piece hpiece => ?_) (by simp [h.ne_nil])
  obtain ⟨s, hs, rfl⟩ := List.mem_map.1 hpiece
  exact h.point_not_mem s hs

/-! ## Checking piece by piece -/

theorem exists_checkSegment_error {s : String} (h : ¬ IsSegment s) :
    ∃ e, checkSegment s.toList = .error e ∧ PieceFault s e := by
  by_cases hs : s = ""
  · subst hs
    exact ⟨_, rfl, .empty⟩
  · have hempty : s.toList.isEmpty = false := by simpa using hs
    have hall : s.toList.all isSegmentChar = false := by
      rw [← Bool.not_eq_true]
      exact fun hall => h ⟨hs, hall⟩
    exact ⟨_, by simp [checkSegment, hempty, hall], .invalid hs h⟩

theorem exists_checkSegments_error (h : ¬ ∀ s ∈ pieces, IsSegment s) :
    ∃ e, checkSegments (pieces.map String.toList) = .error e ∧ FirstFault pieces e := by
  induction pieces with
  | nil => exact absurd (by simp) h
  | cons s rest ih =>
    rw [List.map_cons, checkSegments]
    by_cases hs : IsSegment s
    · obtain ⟨e, herror, good, bad, after, rfl, hgood, hbad⟩ :=
        ih fun hrest => h (List.forall_mem_cons.2 ⟨hs, hrest⟩)
      rw [checkSegment_of_isSegment hs, herror]
      exact ⟨e, rfl, s :: good, bad, after, rfl, List.forall_mem_cons.2 ⟨hs, hgood⟩, hbad⟩
    · obtain ⟨e, herror, hfault⟩ := exists_checkSegment_error hs
      rw [herror]
      exact ⟨e, rfl, [], s, rest, rfl, by simp, hfault⟩

/-- A text that is not empty is read by its pieces. -/
theorem read_pieces (hne : text ≠ "") (h : Pieces text pieces) :
    read text = (checkSegments (pieces.map String.toList)).map Path.mk := by
  have hempty : text.isEmpty = false := by rwa [Bool.eq_false_iff, ne_eq, String.isEmpty_iff]
  rw [read, hempty, h.splitOn]
  rfl

theorem read_eq_ok_iff : read text = .ok p ↔ p.text = text ∧ p.Valid := by
  constructor
  · intro h
    by_cases hne : text = ""
    · obtain rfl : root = p := Except.ok.inj (by rw [← read_empty, ← h, hne])
      exact ⟨hne.symm, by simp [Valid, root]⟩
    · obtain ⟨pieces, hpieces⟩ := exists_pieces text
      rw [read_pieces hne hpieces] at h
      by_cases hall : ∀ s ∈ pieces, IsSegment s
      · rw [checkSegments_of_isSegment hall] at h
        obtain rfl : ⟨pieces⟩ = p := Except.ok.inj h
        exact ⟨(text_eq_intercalate _).trans hpieces.text_eq.symm, hall⟩
      · obtain ⟨e, herror, -⟩ := exists_checkSegments_error hall
        rw [herror] at h
        cases h
  · rintro ⟨rfl, hvalid⟩
    exact read_text hvalid

theorem exists_read_iff (h : Pieces text pieces) :
    (∃ p, read text = .ok p) ↔ text = "" ∨ ∀ s ∈ pieces, IsSegment s := by
  by_cases hne : text = ""
  · subst hne
    exact iff_of_true ⟨root, read_empty⟩ (.inl rfl)
  · rw [read_pieces hne h, or_iff_right hne]
    constructor
    · rintro ⟨p, hp⟩
      by_contra hall
      obtain ⟨e, herror, -⟩ := exists_checkSegments_error hall
      rw [herror] at hp
      cases hp
    · intro hall
      exact ⟨⟨pieces⟩, by rw [checkSegments_of_isSegment hall]; rfl⟩

theorem firstFault_of_read (h : Pieces text pieces) (herror : read text = .error e) :
    FirstFault pieces e := by
  have hfails : ¬ ∃ p, read text = .ok p := by
    rintro ⟨p, hp⟩
    rw [herror] at hp
    cases hp
  rw [exists_read_iff h, not_or] at hfails
  obtain ⟨e', herror', hfault⟩ := exists_checkSegments_error hfails.2
  rw [read_pieces hfails.1 h, herror'] at herror
  obtain rfl : e' = e := Except.error.inj herror
  exact hfault

/-! ## Texts of paths -/

/-- The text that is shown of the root is no other path. -/
theorem read_eq_ok_of_isTextOf (hp : p.Valid) (h : IsTextOf text p) :
    read text = .ok p ∨ text = "<root>" ∧ p = root := by
  by_cases hroot : p = root
  · rcases h with rfl | rfl
    · exact .inl (read_text hp)
    · exact .inr ⟨by rw [hroot]; rfl, hroot⟩
  · rcases h with rfl | rfl
    · exact .inl (read_text hp)
    · exact .inl (read_display hroot hp)

theorem read_root_display : read "<root>" = .error (.invalidSegment "<root>") := by decide +kernel

theorem eq_of_isTextOf (hp : p.Valid) (hq : q.Valid) (h : IsTextOf text p) (h' : IsTextOf text q) :
    p = q := by
  rcases read_eq_ok_of_isTextOf hp h with hread | ⟨rfl, rfl⟩
  · rcases read_eq_ok_of_isTextOf hq h' with hread' | ⟨rfl, rfl⟩
    · exact Except.ok.inj (hread.symm.trans hread')
    · rw [read_root_display] at hread
      cases hread
  · rcases read_eq_ok_of_isTextOf hq h' with hread' | ⟨-, rfl⟩
    · rw [read_root_display] at hread'
      cases hread'
    · rfl

/-- Texts and paths are inverse. A text has pieces between its points, and it is read as a path exactly
if it is empty or they are all segments; else the fault is that of the first piece that is none. The
segments of the path, joined with points, are the text. A path of segments is read from its text, and
from the text that messages show unless it is the root, and no two such paths have a text in common. -/
theorem texts_inverse :
    (∀ text, ∃ pieces, Pieces text pieces) ∧
    (∀ text pieces, Pieces text pieces →
      ((∃ p, read text = .ok p) ↔ text = "" ∨ ∀ s ∈ pieces, IsSegment s) ∧
      ∀ e, read text = .error e → FirstFault pieces e) ∧
    (∀ text p, read text = .ok p → ".".intercalate p.segments = text ∧ p.Valid) ∧
    (∀ p : Path, p.Valid → read p.text = .ok p ∧ (p ≠ root → read p.display = .ok p)) ∧
    ∀ text p q, p.Valid → q.Valid → IsTextOf text p → IsTextOf text q → p = q := by
  refine ⟨exists_pieces, fun text pieces h => ⟨exists_read_iff h, fun e => firstFault_of_read h⟩,
    fun text p h => ?_, fun p hp => ⟨read_text hp, fun hroot => read_display hroot hp⟩,
    fun text p q => eq_of_isTextOf⟩
  obtain ⟨htext, hvalid⟩ := read_eq_ok_iff.1 h
  exact ⟨(text_eq_intercalate p).symm.trans htext, hvalid⟩

theorem texts_inverse_columns :
    Pieces "columns.0.größe-1" ["columns", "0", "größe-1"] ∧
    (∃ p, read "columns.0.größe-1" = .ok p ∧ ".".intercalate p.segments = "columns.0.größe-1" ∧
      read p.display = .ok p) ∧
    Pieces "a.b c..d" ["a", "b c", "", "d"] ∧
    ∃ e, read "a.b c..d" = .error e ∧ FirstFault ["a", "b c", "", "d"] e := by
  obtain ⟨-, hread, hsegments, hwritten, -⟩ := texts_inverse
  have hcolumns : Pieces "columns.0.größe-1" ["columns", "0", "größe-1"] := by constructor <;> decide
  have hspoilt : Pieces "a.b c..d" ["a", "b c", "", "d"] := by constructor <;> decide
  have hall : ∀ s ∈ ["columns", "0", "größe-1"], IsSegment s := by decide +kernel
  have herror : read "a.b c..d" = .error (.invalidSegment "b c") := by decide +kernel
  obtain ⟨p, hp⟩ := (hread _ _ hcolumns).1.2 (.inr hall)
  obtain ⟨htext, hvalid⟩ := hsegments _ p hp
  have hroot : p ≠ root := by
    rintro rfl
    exact absurd htext (by decide)
  exact ⟨hcolumns, ⟨p, hp, htext, (hwritten p hvalid).2 hroot⟩, hspoilt, _, herror,
    (hread _ _ hspoilt).2 _ herror⟩

end TaggedMarkup.Path
