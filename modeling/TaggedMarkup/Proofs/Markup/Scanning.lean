import Mathlib.Data.List.DropRight
import Mathlib.Data.List.TakeWhile
import TaggedMarkup.ElementName
import TaggedMarkup.Markup.Reader
import TaggedMarkup.Markup.Writer
/-!
# Reading what was written, piece by piece

A tag, a run of character data and a verbatim section are read back one at a time, whatever text
follows them. `readFrom` carries the open elements along, so each statement says what one written
piece does to them: `readFrom_openTag`, `readFrom_escape`, `readFrom_writeVerbatim` and
`readFrom_closeTag`. Blanks between the pieces are not seen.
-/
namespace TaggedMarkup

/-- A run of name characters; every element name is one. -/
def IsName (s : String) : Prop := s ≠ "" ∧ ∀ c ∈ s.toList, isNameChar c = true

instance (s : String) : Decidable (IsName s) :=
  decidable_of_iff (s ≠ "" ∧ s.toList.all isNameChar = true) (by simp [IsName])

theorem isName_of_isElementName {s : String} (h : isElementName s = true) : IsName s := by
  unfold isElementName at h
  cases hs : s.toList with
  | nil => simp [hs] at h
  | cons c rest =>
    simp only [hs, Bool.and_eq_true, List.all_eq_true] at h
    refine ⟨fun he => by simp [he] at hs, ?_⟩
    intro d hd
    rw [hs] at hd
    rcases List.mem_cons.1 hd with rfl | hd
    · have hc := h.1
      simp only [isNameChar, Char.isAlphanum]
      revert hc
      cases d.isAlpha <;> cases d.isDigit <;> simp +contextual
    · exact h.2 d hd

namespace Markup

theorem ne_of_isNameChar {c d : Char} (hc : isNameChar c = true) (hd : isNameChar d = false) :
    c ≠ d := by
  rintro rfl
  rw [hc] at hd
  exact Bool.noConfusion hd

theorem isSpace_of_isNameChar {c : Char} (hc : isNameChar c = true) : isSpace c = false := by
  have h1 := ne_of_isNameChar hc (d := ' ') (by decide)
  have h2 := ne_of_isNameChar hc (d := '\t') (by decide)
  have h3 := ne_of_isNameChar hc (d := '\n') (by decide)
  have h4 := ne_of_isNameChar hc (d := '\r') (by decide)
  simp [isSpace, h1, h2, h3, h4]

/-! ## Escaped text -/

theorem escape_append (s t : List Char) : escape (s ++ t) = escape s ++ escape t := by
  simp [escape]

theorem escape_cons (c : Char) (s : List Char) : escape (c :: s) = escapeChar c ++ escape s := by
  simp [escape]

/-- Markup characters and the double quote stand for themselves in no escaped text. -/
theorem ne_of_mem_escapeChar {c d e : Char} (h : d ∈ escapeChar c)
    (he : e = '<' ∨ e = '"') : d ≠ e := by
  unfold escapeChar entityName? at h
  rcases he with rfl | rfl <;> (rintro rfl; split at h) <;> grind

theorem ne_of_mem_escape {s : List Char} {d e : Char} (h : d ∈ escape s)
    (he : e = '<' ∨ e = '"') : d ≠ e := by
  obtain ⟨c, -, hd⟩ := List.mem_flatMap.1 h
  exact ne_of_mem_escapeChar hd he

theorem escapeChar_of_isSpace {c : Char} (h : isSpace c = true) : escapeChar c = [c] := by
  simp only [isSpace, Bool.or_eq_true, beq_iff_eq] at h
  rcases h with ((rfl | rfl) | rfl) | rfl <;> rfl

/-- An escaped character is no blank at either end unless the character is one. -/
theorem escapeChar_ends {c : Char} (h : isSpace c = false) :
    ∃ a m b, escapeChar c = a :: m ∧ isSpace a = false ∧
      escapeChar c = (escapeChar c).dropLast ++ [b] ∧ isSpace b = false := by
  unfold escapeChar entityName?
  split
  · next name hn =>
    split at hn <;> simp only [Option.some.injEq, reduceCtorEq] at hn <;> subst hn <;>
      exact ⟨_, _, _, rfl, rfl, rfl, rfl⟩
  · exact ⟨c, [], c, rfl, h, rfl, h⟩

/-- A text without the blanks at its ends. -/
def trim (s : List Char) : List Char := trimEnd (s.dropWhile isSpace)

theorem dropWhile_isSpace_append {blanks : List Char} (h : ∀ c ∈ blanks, isSpace c = true)
    (s : List Char) : (blanks ++ s).dropWhile isSpace = s.dropWhile isSpace := by
  induction blanks with
  | nil => rfl
  | cons c rest ih =>
    rw [List.cons_append, List.dropWhile_cons_of_pos (h c (by simp))]
    exact ih fun d hd => h d (List.mem_cons_of_mem c hd)

theorem dropWhile_escape (s : List Char) :
    (escape s).dropWhile isSpace = escape (s.dropWhile isSpace) := by
  induction s with
  | nil => rfl
  | cons c s ih =>
    cases hc : isSpace c with
    | true =>
      rw [escape_cons, escapeChar_of_isSpace hc, List.dropWhile_cons_of_pos hc]
      exact (List.dropWhile_cons_of_pos hc).trans ih
    | false =>
      obtain ⟨a, m, -, hm, ha, -⟩ := escapeChar_ends hc
      rw [List.dropWhile_cons_of_neg (by simp [hc]), escape_cons, hm, List.cons_append,
        List.dropWhile_cons_of_neg (by simp [ha])]

theorem trimEnd_eq (s : List Char) : trimEnd s = s.rdropWhile isSpace := rfl

theorem trimEnd_append_blanks {blanks : List Char} (h : ∀ c ∈ blanks, isSpace c = true)
    (s : List Char) : trimEnd (s ++ blanks) = trimEnd s := by
  induction blanks using List.reverseRecOn with
  | nil => simp
  | append_singleton blanks c ih =>
    rw [← List.append_assoc, trimEnd_eq, List.rdropWhile_concat_pos _ _ _ (h c (by simp))]
    exact ih fun d hd => h d (by simp [hd])

theorem trimEnd_escape (s : List Char) : trimEnd (escape s) = escape (trimEnd s) := by
  induction s using List.reverseRecOn with
  | nil => rfl
  | append_singleton s c ih =>
    have hs : escape (s ++ [c]) = escape s ++ escapeChar c := by simp [escape]
    cases hc : isSpace c with
    | true =>
      rw [hs, escapeChar_of_isSpace hc, trimEnd_eq, trimEnd_eq, List.rdropWhile_concat_pos _ _ _ hc,
        List.rdropWhile_concat_pos _ _ _ hc]
      exact ih
    | false =>
      obtain ⟨-, -, b, -, -, hb, hbs⟩ := escapeChar_ends hc
      rw [hs, trimEnd_eq, trimEnd_eq, List.rdropWhile_concat_neg _ _ _ (by simp [hc]), hs, hb,
        ← List.append_assoc, List.rdropWhile_concat_neg _ _ _ (by simp [hbs])]

/-! ## Tags -/

theorem splitTag?_append_plain {s : List Char} (h : ∀ c ∈ s, c ≠ '>' ∧ c ≠ '"' ∧ c ≠ '\'')
    (rest : List Char) :
    splitTag? none (s ++ rest) = (splitTag? none rest).map fun p => (s ++ p.1, p.2) := by
  induction s with
  | nil => simp
  | cons c s ih =>
    obtain ⟨h1, h2, h3⟩ := h c (by simp)
    have hs := ih fun d hd => h d (List.mem_cons_of_mem c hd)
    simp [splitTag?, h1, h2, h3, hs, Function.comp_def]

theorem splitTag?_append_quoted {s : List Char} (h : ∀ c ∈ s, c ≠ '"') (rest : List Char) :
    splitTag? (some '"') (s ++ '"' :: rest) =
      (splitTag? none rest).map fun p => (s ++ '"' :: p.1, p.2) := by
  induction s with
  | nil => simp [splitTag?]
  | cons c s ih =>
    have hc : ¬ '"' = c := fun hc => h c (by simp) hc.symm
    have hs := ih fun d hd => h d (List.mem_cons_of_mem c hd)
    simp [splitTag?, hc, hs, Function.comp_def]

theorem plain_of_isNameChar {c : Char} (h : isNameChar c = true) :
    c ≠ '>' ∧ c ≠ '"' ∧ c ≠ '\'' :=
  ⟨ne_of_isNameChar h (by decide), ne_of_isNameChar h (by decide), ne_of_isNameChar h (by decide)⟩

/-- The attributes of a tag as they are written. -/
def attributesText (attributes : Entries String) : List Char :=
  attributes.flatMap fun a => ' ' :: a.1.toList ++ ['=', '"'] ++ escape a.2.toList ++ ['"']

theorem attributesText_cons (name v : String) (rest : Entries String) :
    attributesText ((name, v) :: rest) =
      ' ' :: (name.toList ++ ('=' :: '"' :: (escape v.toList ++ '"' :: attributesText rest))) := by
  simp [attributesText]

theorem splitTag?_attributesText {attributes : Entries String}
    (h : ∀ a ∈ attributes, IsName a.1) (rest : List Char) :
    splitTag? none (attributesText attributes ++ '>' :: rest) =
      some (attributesText attributes, rest) := by
  induction attributes with
  | nil => simp [attributesText, splitTag?]
  | cons a more ih =>
    obtain ⟨name, v⟩ := a
    have hname : ∀ c ∈ ' ' :: (name.toList ++ ['=']), c ≠ '>' ∧ c ≠ '"' ∧ c ≠ '\'' := by
      intro c hc
      simp only [List.mem_cons, List.mem_append, List.not_mem_nil, or_false] at hc
      rcases hc with rfl | hc | rfl
      · decide
      · exact plain_of_isNameChar ((h (name, v) (by simp)).2 c hc)
      · decide
    have hv : ∀ c ∈ escape v.toList, c ≠ '"' := fun c hc => ne_of_mem_escape hc (.inr rfl)
    have hsplit := splitTag?_append_quoted hv (attributesText more ++ '>' :: rest)
    rw [ih fun a ha => h a (List.mem_cons_of_mem _ ha)] at hsplit
    have hopen : splitTag? none ('"' :: (escape v.toList ++ '"' :: (attributesText more ++ '>' :: rest))) =
        some ('"' :: (escape v.toList ++ '"' :: attributesText more), rest) := by
      rw [splitTag?]
      simp [hsplit]
    have hall := splitTag?_append_plain hname
      ('"' :: (escape v.toList ++ '"' :: (attributesText more ++ '>' :: rest)))
    rw [hopen] at hall
    simpa [attributesText_cons] using hall

theorem scanAttributes?_key {s : List Char} (h : ∀ c ∈ s, isNameChar c = true)
    (key rest : List Char) :
    scanAttributes? (.key key) (s ++ '=' :: rest) =
      scanAttributes? (.beforeValue (s.reverse ++ key)) rest := by
  induction s generalizing key with
  | nil => simp [scanAttributes?]
  | cons c s ih =>
    have hc := h c (by simp)
    rw [List.cons_append, scanAttributes?, if_neg (ne_of_isNameChar hc (by decide)),
      isSpace_of_isNameChar hc, if_neg Bool.false_ne_true,
      ih fun d hd => h d (List.mem_cons_of_mem c hd)]
    simp

theorem scanAttributes?_value {s : List Char} (h : ∀ c ∈ s, c ≠ '"') (key value rest : List Char) :
    scanAttributes? (.value key '"' value) (s ++ '"' :: rest) =
      (scanAttributes? .between rest).map ((key.reverse, value.reverse ++ s) :: ·) := by
  induction s generalizing value with
  | nil => simp [scanAttributes?]
  | cons c s ih =>
    rw [List.cons_append, scanAttributes?, if_neg (h c (by simp)),
      ih fun d hd => h d (List.mem_cons_of_mem c hd)]
    simp

theorem scanAttributes?_attributesText {attributes : Entries String}
    (h : ∀ a ∈ attributes, IsName a.1) :
    scanAttributes? .between (attributesText attributes) =
      some (attributes.map fun a => (a.1.toList, escape a.2.toList)) := by
  induction attributes with
  | nil => rfl
  | cons a more ih =>
    obtain ⟨name, v⟩ := a
    obtain ⟨hne, hname⟩ := h (name, v) (by simp)
    obtain ⟨c, s, hs⟩ : ∃ c s, name.toList = c :: s :=
      List.exists_cons_of_ne_nil fun hn => hne (String.toList_inj.1 hn)
    have hc : isSpace c = false := isSpace_of_isNameChar (hname c (by simp [hs]))
    have hv : ∀ d ∈ escape v.toList, d ≠ '"' := fun d hd => ne_of_mem_escape hd (.inr rfl)
    rw [attributesText_cons, hs, List.cons_append]
    rw [scanAttributes?, if_pos (by decide), scanAttributes?, hc, if_neg Bool.false_ne_true,
      scanAttributes?_key fun d hd => hname d (by simp [hs, hd])]
    rw [scanAttributes?, if_pos (.inl rfl), scanAttributes?_value hv,
      ih fun a ha => h a (List.mem_cons_of_mem _ ha)]
    simp [hs]

/-- An attribute whose value is unescaped. -/
def unescapedAttribute? (raw : List Char × List Char) : Option (String × String) :=
  (unescape? raw.2).map fun v => (String.ofList raw.1, String.ofList v)

theorem attributes?_eq (s : List Char) : attributes? s =
    (scanAttributes? .between s).bind fun raw => (raw.mapM unescapedAttribute?).bind fun pairs =>
      if (pairs.map Prod.fst).Nodup then some pairs else none := rfl

/-- Attributes are read back as they were given. -/
theorem attributes?_attributesText {attributes : Entries String}
    (h : ∀ a ∈ attributes, IsName a.1) (hd : Entries.Distinct attributes) :
    attributes? (attributesText attributes) = some attributes := by
  have hmap : (attributes.map fun a => (a.1.toList, escape a.2.toList)).mapM unescapedAttribute? =
      some attributes := by
    clear h hd
    induction attributes with
    | nil => rfl
    | cons a more ih =>
      rw [List.map_cons, List.mapM_cons, ih]
      simp [unescapedAttribute?, unescape?_escape]
  rw [attributes?_eq, scanAttributes?_attributesText h, Option.bind_some, hmap, Option.bind_some]
  exact if_pos hd

namespace Token

theorem ofMarkup_of_isNameChar {c : Char} (h : isNameChar c = true) (s : List Char) :
    ofMarkup (c :: s) = delimited ofTag (splitTag? none (c :: s)) := by
  have h1 : c ≠ '!' := ne_of_isNameChar h (by decide)
  have h2 : c ≠ '?' := ne_of_isNameChar h (by decide)
  have h3 : c ≠ '/' := ne_of_isNameChar h (by decide)
  unfold ofMarkup
  split <;> simp_all

/-- The last character of a tag that is written is none that makes an empty element. -/
theorem getLast?_tag {name : String} (hn : IsName name) {attributes : Entries String} :
    (name.toList ++ attributesText attributes).getLast? ≠ some '/' := by
  obtain ⟨hne, hname⟩ := hn
  rcases List.eq_nil_or_concat' attributes with rfl | ⟨more, a, rfl⟩
  · intro hl
    simp only [attributesText, List.flatMap_nil, List.append_nil] at hl
    exact ne_of_isNameChar (hname '/' (List.mem_of_getLast? hl)) (d := '/') (by decide) rfl
  · have hlast : name.toList ++ attributesText (more ++ [a]) =
        (name.toList ++ attributesText more ++
          (' ' :: a.1.toList ++ ['=', '"'] ++ escape a.2.toList)) ++ ['"'] := by
      simp [attributesText]
    rw [hlast, List.getLast?_concat]
    decide

theorem takeWhile_tag {name : String} (hn : IsName name) (attributes : Entries String) :
    (name.toList ++ attributesText attributes).takeWhile (fun c => !isSpace c) = name.toList ∧
    (name.toList ++ attributesText attributes).dropWhile (fun c => !isSpace c) =
      attributesText attributes := by
  have hname : ∀ c ∈ name.toList, (!isSpace c) = true := fun c hc => by
    simp [isSpace_of_isNameChar (hn.2 c hc)]
  rw [List.takeWhile_append_of_pos hname, List.dropWhile_append_of_pos hname]
  cases attributes with
  | nil => simp [attributesText]
  | cons a more =>
    obtain ⟨key, v⟩ := a
    rw [attributesText_cons, List.takeWhile_cons_of_neg (by decide),
      List.dropWhile_cons_of_neg (by decide), List.append_nil]
    exact ⟨rfl, rfl⟩

theorem ofTag_attributesText {name : String} (hn : IsName name) {attributes : Entries String}
    (ha : ∀ a ∈ attributes, IsName a.1) (hd : Entries.Distinct attributes) :
    ofTag (name.toList ++ attributesText attributes) = opening name (some attributes) := by
  obtain ⟨htake, hdrop⟩ := takeWhile_tag hn attributes
  rw [ofTag, if_neg (getLast?_tag hn)]
  dsimp only
  rw [htake, hdrop, attributes?_attributesText ha hd, String.ofList_toList]

theorem ofText_openTag {name : String} (hn : IsName name) {attributes : Entries String}
    (ha : ∀ a ∈ attributes, IsName a.1) (hd : Entries.Distinct attributes) (rest : List Char) :
    ofText (openTag name (attributesText attributes) ++ rest) =
      (opening name (some attributes), rest) := by
  have hsplit : splitTag? none (name.toList ++ (attributesText attributes ++ '>' :: rest)) =
      some (name.toList ++ attributesText attributes, rest) := by
    rw [splitTag?_append_plain fun c hc => plain_of_isNameChar (hn.2 c hc),
      splitTag?_attributesText ha]
    rfl
  obtain ⟨c, s, hs⟩ : ∃ c s, name.toList = c :: s :=
    List.exists_cons_of_ne_nil fun he => hn.1 (String.toList_inj.1 he)
  have hopen : openTag name (attributesText attributes) ++ rest =
      '<' :: c :: (s ++ (attributesText attributes ++ '>' :: rest)) := by
    simp [openTag, hs]
  rw [hopen, ofText, ofMarkup_of_isNameChar (hn.2 c (by simp [hs])), ← List.cons_append, ← hs,
    hsplit]
  exact congrArg (·, rest) (ofTag_attributesText hn ha hd)

theorem ofText_closeTag {name : String} (hn : IsName name) (rest : List Char) :
    ofText (closeTag name ++ rest) = (closing name, rest) := by
  have hsplit : splitTag? none (name.toList ++ '>' :: rest) = some (name.toList, rest) := by
    rw [splitTag?_append_plain fun c hc => plain_of_isNameChar (hn.2 c hc)]
    simp [splitTag?]
  have hclose : closeTag name ++ rest = '<' :: '/' :: (name.toList ++ '>' :: rest) := by
    simp [closeTag]
  obtain ⟨s, c, hs⟩ := (List.eq_nil_or_concat' name.toList).resolve_left
    fun he => hn.1 (String.toList_inj.1 he)
  have hc : isSpace c = false := isSpace_of_isNameChar (hn.2 c (by simp [hs]))
  have hall : name.toList.all isSpace = false := by simp [hs, hc]
  have htrim : trimEnd name.toList = name.toList := by
    rw [hs, trimEnd_eq, List.rdropWhile_concat_neg _ _ _ (by simp [hc])]
  rw [hclose, ofText, ofMarkup, hsplit]
  simp only [delimited, ofClosingTag, hall, Bool.false_eq_true, if_false, htrim,
    String.ofList_toList]

/-- Character data runs to the next markup or to the end. -/
theorem ofText_data {c : Char} (hc : c ≠ '<') (s : List Char) :
    ofText (c :: s) =
      (characters ((unescape? (trimEnd ((c :: s).takeWhile (· ≠ '<')))).map String.ofList),
        (c :: s).dropWhile (· ≠ '<')) := by
  rw [ofText]
  exact fun s hs => hc (List.cons.inj hs).1

/-- The blanks behind escaped text are cut before its entities are read. -/
theorem ofText_escape {c : Char} {s : List Char} (hc : isSpace c = false) {blanks : List Char}
    (hb : ∀ d ∈ blanks, isSpace d = true) (rest : List Char) :
    ofText (escape (c :: s) ++ (blanks ++ '<' :: rest)) =
      (characters (some (String.ofList (trimEnd (c :: s)))), '<' :: rest) := by
  obtain ⟨a, m, -, hm, -, -⟩ := escapeChar_ends hc
  have hplain : ∀ d ∈ escape (c :: s) ++ blanks, decide (d ≠ '<') = true := by
    intro d hd
    rw [decide_eq_true_iff]
    rcases List.mem_append.1 hd with hd | hd
    · exact ne_of_mem_escape hd (.inl rfl)
    · rintro rfl
      exact absurd (hb '<' hd) (by decide)
  have ha : a ≠ '<' := ne_of_mem_escapeChar (hm ▸ List.mem_cons_self) (.inl rfl)
  have hu : escape (c :: s) ++ (blanks ++ '<' :: rest) =
      a :: (m ++ escape s ++ (blanks ++ '<' :: rest)) := by
    rw [escape_cons, hm]
    rfl
  rw [hu, ofText_data ha, ← hu, ← List.append_assoc, List.takeWhile_append_of_pos hplain,
    List.dropWhile_append_of_pos hplain, List.takeWhile_cons_of_neg (by simp),
    List.dropWhile_cons_of_neg (by simp), List.append_nil, trimEnd_append_blanks hb,
    trimEnd_escape, unescape?_escape]
  rfl

end Token

/-! ## Verbatim sections -/

theorem splitEndMarks_cons {c : Char} {s : List Char}
    (h : ∀ t, c = ']' → s = ']' :: '>' :: t → False) :
    splitEndMarks (c :: s) = c :: splitEndMarks s := by
  rw [splitEndMarks]
  exact h

/-- How a split text goes on with a mark behind it: it begins as the text does. -/
theorem splitEndMarks_append_eq_cons {s rest u : List Char} {c : Char} (hc : c ≠ ']')
    (h : splitEndMarks s ++ (']' :: rest) = c :: u) : ∃ t, s = c :: t := by
  unfold splitEndMarks at h
  split at h
  · simp [Ne.symm hc] at h
  · next d s _ => exact ⟨s, by rw [(List.cons.inj h).1]⟩
  · exact absurd (List.cons.inj h).1.symm hc

/-- The end mark stands at no place of a split text where it did not stand before. -/
theorem dropMark?_splitEndMarks {c : Char} {s : List Char}
    (h : ∀ t, c = ']' → s = ']' :: '>' :: t → False) (rest : List Char) :
    dropMark? [']', ']', '>'] (c :: (splitEndMarks s ++ (']' :: ']' :: '>' :: rest))) = none := by
  by_cases hc : c = ']'
  · subst hc
    unfold splitEndMarks
    split
    · simp [dropMark?]
    · next d s hd =>
      by_cases hb : d = ']'
      · subst hb
        cases hs : splitEndMarks s ++ (']' :: ']' :: '>' :: rest) with
        | nil => simp at hs
        | cons e u =>
          have he : e ≠ '>' := by
            rintro rfl
            obtain ⟨t, rfl⟩ := splitEndMarks_append_eq_cons (by decide) hs
            exact h t rfl rfl
          simp [dropMark?, hs, Ne.symm he]
      · simp [dropMark?, Ne.symm hb]
    · simp [dropMark?]
  · simp [dropMark?, Ne.symm hc]

/-- A section ends before the first end mark of its text, or holds all of it. -/
theorem splitAtMark?_splitEndMarks (s rest : List Char) :
    ∃ a b, s = a ++ b ∧
      ((b = [] ∧ splitAtMark? [']', ']', '>'] (splitEndMarks s ++ (']' :: ']' :: '>' :: rest)) =
          some (a, rest)) ∨
        (b.length < s.length ∧
          splitAtMark? [']', ']', '>'] (splitEndMarks s ++ (']' :: ']' :: '>' :: rest)) =
            some (a, writeVerbatim b ++ rest))) := by
  fun_induction splitEndMarks s with
  | case1 s ih =>
    refine ⟨[']', ']'], '>' :: s, rfl, .inr ⟨by simp, ?_⟩⟩
    have hs : splitEndMarks ('>' :: s) = '>' :: splitEndMarks s :=
      splitEndMarks_cons fun t h => absurd h (by decide)
    simp [splitAtMark?, dropMark?, writeVerbatim, verbatimStart, verbatimEnd, hs]
  | case2 c s h ih =>
    obtain ⟨a, b, hab, hsplit⟩ := ih
    refine ⟨c :: a, b, by rw [hab]; rfl, ?_⟩
    rcases hsplit with ⟨hb, hsplit⟩ | ⟨hb, hsplit⟩
    · refine .inl ⟨hb, ?_⟩
      rw [List.cons_append, splitAtMark?, dropMark?_splitEndMarks h, hsplit]
      rfl
    · refine .inr ⟨Nat.lt_succ_of_lt hb, ?_⟩
      rw [List.cons_append, splitAtMark?, dropMark?_splitEndMarks h, hsplit]
      rfl
  | case3 => exact ⟨[], [], rfl, .inl ⟨rfl, by simp [splitAtMark?, dropMark?]⟩⟩

/-! ## Open elements -/

/-- Reads a text on from where some elements are open. -/
def readFrom (limit : Nat) (r : Reader) (s : List Char) : Except Fault Reader :=
  (Token.all s).foldlM (Reader.step limit) r

variable {limit : Nat} {r : Reader} {f : Frame} {stack : List Frame} {top : Entries Tree}

theorem readFrom_blanks {blanks : List Char} (h : ∀ c ∈ blanks, isSpace c = true)
    (s : List Char) : readFrom limit r (blanks ++ s) = readFrom limit r s := by
  unfold readFrom
  rw [Token.all, dropWhile_isSpace_append h, ← Token.all]

theorem readFrom_cons {c : Char} (hc : isSpace c = false) (s : List Char) :
    readFrom limit r (c :: s) =
      (Reader.step limit r (Token.ofText (c :: s)).1).bind fun r =>
        readFrom limit r (Token.ofText (c :: s)).2 := by
  have hdrop : (c :: s).dropWhile isSpace = c :: s :=
    List.dropWhile_cons_of_neg (by simp [hc])
  unfold readFrom
  rw [Token.all, hdrop]
  exact List.foldlM_cons

theorem readFrom_openTag {name : String} (hn : IsName name) {attributes : Entries String}
    (ha : ∀ a ∈ attributes, IsName a.1) (hd : Entries.Distinct attributes)
    (hl : r.stack.length < limit) (rest : List Char) :
    readFrom limit r (openTag name (attributesText attributes) ++ rest) =
      readFrom limit { r with stack := Frame.ofTag name attributes :: r.stack } rest := by
  have htext := Token.ofText_openTag hn ha hd rest
  have hopen : openTag name (attributesText attributes) ++ rest =
      '<' :: (name.toList ++ attributesText attributes ++ ['>'] ++ rest) := by
    simp [openTag]
  rw [hopen, readFrom_cons (by decide), ← hopen, htext]
  simp only [Reader.step, Reader.openTag, if_neg (Nat.not_le.2 hl)]
  rfl

theorem readFrom_closeTag (hn : IsName f.name) (rest : List Char) :
    readFrom limit ⟨f :: stack, top⟩ (closeTag f.name ++ rest) =
      readFrom limit (Reader.place top f.name f.close stack) rest := by
  have htext := Token.ofText_closeTag hn rest
  have hclose : closeTag f.name ++ rest = '<' :: '/' :: (f.name.toList ++ ['>'] ++ rest) := by
    simp [closeTag]
  rw [hclose, readFrom_cons (by decide), ← hclose, htext]
  simp only [Reader.step, if_true]
  rfl

/-- Escaped text before the next markup is added to the innermost element, without its blanks. -/
theorem readFrom_escape (s : List Char) {blanks : List Char} (hb : ∀ c ∈ blanks, isSpace c = true)
    (rest : List Char) :
    readFrom limit ⟨f :: stack, top⟩ (escape s ++ (blanks ++ '<' :: rest)) =
      readFrom limit ⟨{ f with text := f.text ++ String.ofList (trim s) } :: stack, top⟩
        ('<' :: rest) := by
  cases hs : s.dropWhile isSpace with
  | nil =>
    have hall : ∀ c ∈ escape s ++ blanks, isSpace c = true := by
      have hdrop := dropWhile_escape s
      rw [hs] at hdrop
      intro c hc
      rcases List.mem_append.1 hc with hc | hc
      · exact List.dropWhile_eq_nil_iff.1 hdrop c hc
      · exact hb c hc
    have htrim : trim s = [] := by rw [trim, hs]; rfl
    rw [← List.append_assoc, readFrom_blanks hall, htrim, String.ofList_nil, String.append_empty]
  | cons c u =>
    have hc : isSpace c = false := by
      have := List.head?_dropWhile_not isSpace s
      rw [hs] at this
      simpa using this
    have hsplit : readFrom limit ⟨f :: stack, top⟩ (escape s ++ (blanks ++ '<' :: rest)) =
        readFrom limit ⟨f :: stack, top⟩ (escape (c :: u) ++ (blanks ++ '<' :: rest)) := by
      have happ : escape s = escape (s.takeWhile isSpace) ++ escape (c :: u) := by
        rw [← escape_append, ← hs, List.takeWhile_append_dropWhile]
      have hlead : ∀ d ∈ escape (s.takeWhile isSpace), isSpace d = true := by
        refine List.dropWhile_eq_nil_iff.1 ?_
        rw [dropWhile_escape, List.dropWhile_eq_nil_iff.2 fun d hd => List.mem_takeWhile_imp hd]
        rfl
      rw [happ, List.append_assoc, readFrom_blanks hlead]
    obtain ⟨a, m, -, hm, ha, -⟩ := escapeChar_ends hc
    have hu : escape (c :: u) ++ (blanks ++ '<' :: rest) =
        a :: (m ++ escape u ++ (blanks ++ '<' :: rest)) := by
      rw [escape_cons, hm]
      rfl
    have htrim : trim s = trimEnd (c :: u) := by rw [trim, hs]
    rw [hsplit, hu, readFrom_cons ha, ← hu, Token.ofText_escape hc hb, htrim]
    rfl

/-- Verbatim text is added to the innermost element as it is. -/
theorem readFrom_writeVerbatim (s rest : List Char) :
    readFrom limit ⟨f :: stack, top⟩ (writeVerbatim s ++ rest) =
      readFrom limit ⟨{ f with text := f.text ++ String.ofList s } :: stack, top⟩ rest := by
  induction hn : s.length using Nat.strong_induction_on generalizing s f with
  | _ n ih =>
    subst hn
    obtain ⟨a, b, hab, hsplit⟩ := splitAtMark?_splitEndMarks s rest
    have hstep : ∀ after, splitAtMark? [']', ']', '>']
          (splitEndMarks s ++ (']' :: ']' :: '>' :: rest)) = some (a, after) →
        readFrom limit ⟨f :: stack, top⟩ (writeVerbatim s ++ rest) =
          readFrom limit ⟨{ f with text := f.text ++ String.ofList a } :: stack, top⟩ after := by
      intro after h
      have hw : writeVerbatim s ++ rest = '<' :: '!' :: '[' :: 'C' :: 'D' :: 'A' :: 'T' :: 'A' ::
          '[' :: (splitEndMarks s ++ (']' :: ']' :: '>' :: rest)) := by
        simp [writeVerbatim, verbatimStart, verbatimEnd]
      rw [hw, readFrom_cons (by decide), Token.ofText, Token.ofMarkup, h]
      rfl
    rcases hsplit with ⟨rfl, h⟩ | ⟨hlt, h⟩
    · rw [hstep _ h, hab, List.append_nil]
    · rw [hstep _ h, ih b.length hlt b rfl, hab]
      simp [String.append_assoc]

end Markup

end TaggedMarkup
