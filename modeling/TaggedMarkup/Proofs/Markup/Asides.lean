import TaggedMarkup.Proofs.Encoding.Paths
import TaggedMarkup.Proofs.Markup.Pieces
/-!
# Comments and processing instructions

A comment or processing instruction is skipped where it stands, but it ends the run of character
data before it and another one begins behind it. Each run is trimmed by itself, so the blanks on
both sides of the place are lost, and nothing else is.
-/
namespace TaggedMarkup.Markup

variable {limit : Nat} {r : Reader}

/-! ## What is skipped -/

/-- A comment or a processing instruction. -/
inductive IsAside : List Char → Prop
  | comment {body : List Char} (h : ¬ ['-', '-', '>'] <:+: body) :
      IsAside ('<' :: '!' :: '-' :: '-' :: (body ++ ['-', '-', '>']))
  | instruction {body : List Char} (h : ¬ ['?', '>'] <:+: body) (hhead : body.head? ≠ some '>') :
      IsAside ('<' :: '?' :: (body ++ ['?', '>']))

/-- A mark is found at its first place; no earlier one can reach into it, as its last character is
not among the others. -/
theorem splitAtMark?_first (mark : List Char) {body : List Char} {last : Char} (hlast : last ∉ mark)
    (h : ¬ (mark ++ [last]) <:+: body) (rest : List Char) :
    splitAtMark? (mark ++ [last]) (body ++ ((mark ++ [last]) ++ rest)) = some (body, rest) := by
  induction body with
  | nil =>
    have hdrop : dropMark? (mark ++ [last]) (mark ++ [last] ++ rest) = some rest :=
      dropMark?_eq_some_iff.2 rfl
    rw [List.nil_append]
    cases hs : mark ++ [last] ++ rest with
    | nil => simp at hs
    | cons c s => rw [splitAtMark?, ← hs, hdrop]
  | cons c body ih =>
    have hdrop : dropMark? (mark ++ [last]) (c :: (body ++ ((mark ++ [last]) ++ rest))) = none := by
      rw [dropMark?_eq_none_iff, ← List.cons_append]
      intro hp
      by_cases hlength : (mark ++ [last]).length ≤ (c :: body).length
      · exact h (List.prefix_of_prefix_length_le hp (List.prefix_append _ _) hlength).isInfix
      · -- The last character of the earlier mark would be an inner one of the mark.
        have hlength : (c :: body).length ≤ mark.length := by
          simpa [Nat.succ_le_iff] using hlength
        obtain ⟨r, hr⟩ := hp
        have hplace : (mark ++ ([last] ++ r))[mark.length]? =
            (c :: body ++ (mark ++ ([last] ++ rest)))[mark.length]? := by
          rw [← List.append_assoc, hr, List.append_assoc mark]
        rw [List.getElem?_append_right (Nat.le_refl _), Nat.sub_self,
          List.getElem?_append_left (Nat.zero_lt_one : 0 < [last].length),
          List.getElem?_append_right hlength,
          List.getElem?_append_left (by simp only [List.length_cons] at hlength ⊢; omega)] at hplace
        have hinner : mark[mark.length - (c :: body).length]? = some last := hplace.symm
        exact hlast (List.mem_of_getElem? hinner)
    have hbody : ¬ (mark ++ [last]) <:+: body := fun hm =>
      h (hm.trans (List.suffix_cons c body).isInfix)
    rw [List.cons_append, splitAtMark?, hdrop]
    simp only [ih hbody, Option.map_some]

theorem ofMarkup_comment {body : List Char} (h : ¬ ['-', '-', '>'] <:+: body) (rest : List Char) :
    Token.ofMarkup ('!' :: '-' :: '-' :: (body ++ (['-', '-', '>'] ++ rest))) =
      (.skipped, rest) := by
  have hsplit := splitAtMark?_first ['-', '-'] (by decide) h rest
  rw [Token.ofMarkup]
  exact congrArg (Token.delimited fun _ => .skipped) hsplit

theorem ofMarkup_instruction {body : List Char} (h : ¬ ['?', '>'] <:+: body)
    (hhead : body.head? ≠ some '>') (rest : List Char) :
    Token.ofMarkup ('?' :: (body ++ (['?', '>'] ++ rest))) = (.skipped, rest) := by
  have hsplit := splitAtMark?_first ['?'] (by decide) h rest
  rw [Token.ofMarkup]
  · exact congrArg (Token.delimited fun _ => .skipped) hsplit
  · intro tail htail
    cases body with
    | nil => cases htail
    | cons c body => exact hhead (congrArg some (List.cons.inj htail).1)

/-- An aside by itself changes nothing. -/
theorem readFrom_aside {aside : List Char} (h : IsAside aside) (rest : List Char) :
    readFrom limit r (aside ++ rest) = readFrom limit r rest := by
  cases h with
  | @comment body h =>
    rw [List.cons_append, readFrom_cons (by decide), Token.ofText, List.cons_append,
      List.cons_append, List.cons_append, List.append_assoc, ofMarkup_comment h]
    rfl
  | @instruction body h hhead =>
    rw [List.cons_append, readFrom_cons (by decide), Token.ofText, List.cons_append,
      List.append_assoc, ofMarkup_instruction h hhead]
    rfl

/-! ## Blanks at the ends of a run -/

theorem trim_blanks_append {blanks : List Char} (h : ∀ c ∈ blanks, isSpace c = true)
    (s : List Char) : trim (blanks ++ s) = trim s := by
  rw [trim, dropWhile_isSpace_append h, trim]

theorem trim_append_blanks {blanks : List Char} (h : ∀ c ∈ blanks, isSpace c = true)
    (s : List Char) : trim (s ++ blanks) = trim s := by
  rw [trim, List.dropWhile_append, trim]
  split
  · next hs =>
    rw [List.dropWhile_eq_nil_iff.2 h, List.isEmpty_iff.1 hs]
  · exact trimEnd_append_blanks h _

theorem trimEnd_append_rtakeWhile (s : List Char) : trimEnd s ++ s.rtakeWhile isSpace = s :=
  List.rdropWhile_append_rtakeWhile

theorem trim_trimEnd (s : List Char) : trim (trimEnd s) = trim s := by
  conv_rhs => rw [← trimEnd_append_rtakeWhile s]
  exact (trim_append_blanks (fun c hc => List.mem_rtakeWhile_imp hc) _).symm

theorem trim_dropWhile (s : List Char) : trim (s.dropWhile isSpace) = trim s := by
  conv_rhs => rw [← List.takeWhile_append_dropWhile (p := isSpace) (l := s)]
  exact (trim_blanks_append (fun c hc => List.mem_takeWhile_imp hc) _).symm

theorem trim_eq_nil_iff {s : List Char} : trim s = [] ↔ ∀ c ∈ s, isSpace c = true := by
  rw [trim, trimEnd_eq, List.rdropWhile_eq_nil_iff]
  constructor
  · intro h
    cases hs : s.dropWhile isSpace with
    | nil => exact List.dropWhile_eq_nil_iff.1 hs
    | cons c t =>
      have hhead := List.head?_dropWhile_not isSpace s
      rw [hs] at h hhead
      exact absurd (h c List.mem_cons_self) (by simpa using hhead)
  · exact fun h c hc => h c (List.dropWhile_subset isSpace hc)

theorem trimEnd_of_last {s : List Char} (h : ∀ c ∈ s.getLast?, isSpace c = false) :
    trimEnd s = s := by
  rw [trimEnd_eq, List.rdropWhile_eq_self_iff]
  intro hne
  simp [h _ (List.getLast?_eq_some_getLast hne)]

theorem dropWhile_of_head {s : List Char} (h : ∀ c ∈ s.head?, isSpace c = false) :
    s.dropWhile isSpace = s := by
  cases s with
  | nil => rfl
  | cons c s => exact List.dropWhile_cons_of_neg (by simp [h c rfl])

/-- Nothing is cut where two runs meet without a blank. -/
theorem trim_append {a b : List Char} (ha : a ≠ []) (hb : b ≠ [])
    (hlast : ∀ c ∈ a.getLast?, isSpace c = false) (hhead : ∀ c ∈ b.head?, isSpace c = false) :
    trim (a ++ b) = trim a ++ trim b := by
  have hdrop : a.dropWhile isSpace ≠ [] := by
    rw [ne_eq, List.dropWhile_eq_nil_iff]
    intro hall
    have hblank := hall _ (List.getLast_mem ha)
    rw [hlast _ (List.getLast?_eq_some_getLast ha)] at hblank
    cases hblank
  have hend : trimEnd (a.dropWhile isSpace) = a.dropWhile isSpace := by
    refine trimEnd_of_last fun c hc => hlast c ?_
    rw [← List.takeWhile_append_dropWhile (p := isSpace) (l := a), List.getLast?_append, hc]
    rfl
  have hrest : b.reverse.dropWhile isSpace ≠ [] := by
    rw [ne_eq, List.dropWhile_eq_nil_iff]
    intro hall
    obtain ⟨c, s, rfl⟩ := List.exists_cons_of_ne_nil hb
    have hblank := hall c (by simp)
    rw [hhead c rfl] at hblank
    cases hblank
  rw [trim, List.dropWhile_append, if_neg (by simpa using hdrop), trim, hend, trim,
    dropWhile_of_head hhead, trimEnd, List.reverse_append, List.dropWhile_append,
    if_neg (by simpa using hrest), List.reverse_append, List.reverse_reverse, trimEnd]

/-! ## Entities in a run -/

/-- Whether a character is behind the `&` of an entity that has not been closed. -/
def entityStep (inside : Bool) (c : Char) : Bool := if c = '&' then true else inside && c != ';'

/-- Whether a run of character data ends inside an entity. -/
def endsInEntity (run : List Char) : Bool := run.foldl entityStep false

/-- Entities are read separately where a run is cut outside of them. -/
theorem unescapeFrom?_append {name : Option (List Char)} {run : List Char}
    (h : run.foldl entityStep name.isSome = false) (s : List Char) :
    unescapeFrom? name (run ++ s) =
      (unescapeFrom? name run).bind fun a => (unescape? s).map (a ++ ·) := by
  induction run generalizing name with
  | nil =>
    cases name with
    | some _ => cases h
    | none => simp [unescapeFrom?, unescape?]
  | cons c run ih =>
    rw [List.foldl_cons] at h
    cases name with
    | none =>
      rw [List.cons_append, unescapeFrom?, unescapeFrom?]
      split
      · next hc =>
        subst hc
        exact @ih (some []) h
      · next hc =>
        rw [ih (by simpa [entityStep, hc] using h)]
        cases unescapeFrom? none run <;> simp [Function.comp_def]
    | some name =>
      rw [List.cons_append, unescapeFrom?, unescapeFrom?]
      split
      · next hc =>
        subst hc
        rw [@ih none h]
        cases resolveEntity? name.reverse <;> cases unescapeFrom? none run <;>
          cases unescape? s <;> rfl
      · split
        · rfl
        · next hsemicolon hc =>
          have hstep : entityStep true c = true := by simp [entityStep, hsemicolon]
          exact @ih (some (c :: name)) (by rwa [Option.isSome_some, hstep] at h)

theorem entityStep_blanks {blanks : List Char} (h : ∀ c ∈ blanks, isSpace c = true)
    (inside : Bool) : blanks.foldl entityStep inside = inside := by
  induction blanks with
  | nil => rfl
  | cons c rest ih =>
    have hc := h c List.mem_cons_self
    have hand : c ≠ '&' := by rintro rfl; cases hc
    have hsemicolon : c ≠ ';' := by rintro rfl; cases hc
    rw [List.foldl_cons, entityStep, if_neg hand, bne_iff_ne.2 hsemicolon, Bool.and_true]
    exact ih fun d hd => h d (List.mem_cons_of_mem _ hd)

theorem endsInEntity_trimEnd (run : List Char) : endsInEntity (trimEnd run) = endsInEntity run := by
  conv_rhs => rw [← trimEnd_append_rtakeWhile run, endsInEntity, List.foldl_append]
  exact (entityStep_blanks (fun c hc => List.mem_rtakeWhile_imp hc) _).symm

theorem endsInEntity_trim (run : List Char) : endsInEntity (trim run) = endsInEntity run := by
  rw [trim, endsInEntity_trimEnd]
  conv_rhs => rw [← List.takeWhile_append_dropWhile (p := isSpace) (l := run), endsInEntity,
    List.foldl_append, entityStep_blanks fun c hc => List.mem_takeWhile_imp hc]
  rfl

/-! ## An aside in a run -/

theorem takeData_congr {data data' : List Char} (h : trim data = trim data') :
    r.takeData data = r.takeData data' := by
  rw [Reader.takeData, h, Reader.takeData]

theorem appendText_append (outside : Fault) (a b : Option (List Char)) :
    r.appendText outside ((a.bind fun s => b.map (s ++ ·)).map String.ofList) =
      (r.appendText outside (a.map String.ofList)).bind fun r =>
        r.appendText outside (b.map String.ofList) := by
  obtain ⟨stack, top⟩ := r
  cases stack with
  | nil => rfl
  | cons f stack =>
    cases a with
    | none => rfl
    | some a =>
      cases b with
      | none => rfl
      | some b =>
        simp only [Option.bind_some, Option.map_some, Reader.appendText, Except.bind,
          String.ofList_append, String.append_assoc]

/-- Two runs that meet without a blank, outside of an entity, do the same one after the other. -/
theorem takeData_append {a b : List Char} (hentity : endsInEntity a = false)
    (hlast : ∀ c ∈ a.getLast?, isSpace c = false) (hhead : ∀ c ∈ b.head?, isSpace c = false) :
    r.takeData (a ++ b) = (r.takeData a).bind fun r => r.takeData b := by
  by_cases ha : a = []
  · subst ha
    rfl
  by_cases hb : b = []
  · subst hb
    rw [List.append_nil]
    cases r.takeData a <;> rfl
  have hblank : ∀ {s : List Char} (hs : s ≠ []) (hend : ∀ c ∈ s.getLast?, isSpace c = false),
      trim s ≠ [] := by
    intro s hs hend hnil
    have hlast := trim_eq_nil_iff.1 hnil _ (List.getLast_mem hs)
    rw [hend _ (List.getLast?_eq_some_getLast hs)] at hlast
    cases hlast
  obtain ⟨c, t, rfl⟩ := List.exists_cons_of_ne_nil hb
  have hb' : trim (c :: t) ≠ [] := fun hnil =>
    Bool.false_ne_true ((hhead c rfl).symm.trans (trim_eq_nil_iff.1 hnil c List.mem_cons_self))
  have hab : trim (a ++ c :: t) ≠ [] := by
    rw [trim_append ha hb hlast hhead]
    exact List.append_ne_nil_of_right_ne_nil _ hb'
  have hunescape : unescape? (trim (a ++ c :: t)) =
      (unescape? (trim a)).bind fun s => (unescape? (trim (c :: t))).map (s ++ ·) := by
    rw [trim_append ha hb hlast hhead]
    exact @unescapeFrom?_append none _ ((endsInEntity_trim a).trans hentity) _
  simp only [Reader.takeData, if_neg hab, if_neg (hblank ha hlast), if_neg hb', hunescape]
  exact appendText_append _ _ _

/-- The character data at the start of a text is not part of the markup behind it. -/
theorem split_data (s : List Char) : '<' ∉ s.takeWhile (· ≠ '<') ∧
    (∀ c ∈ (s.dropWhile (· ≠ '<')).head?, c = '<') ∧
    s.dropWhile isSpace =
      (s.takeWhile (· ≠ '<')).dropWhile isSpace ++ s.dropWhile (· ≠ '<') := by
  have hhead : ∀ c ∈ (s.dropWhile (· ≠ '<')).head?, c = '<' := by
    intro c hc
    have hstop := List.head?_dropWhile_not (fun c => decide (c ≠ '<')) s
    rw [Option.mem_def.1 hc] at hstop
    simpa using hstop
  refine ⟨fun hm => absurd (List.mem_takeWhile_imp hm) (by decide), hhead, ?_⟩
  conv_lhs => rw [← List.takeWhile_append_dropWhile (p := (· ≠ '<')) (l := s)]
  rw [List.dropWhile_append]
  split
  · next hnil =>
    rw [List.isEmpty_iff.1 hnil, List.nil_append]
    refine dropWhile_of_head fun c hc => ?_
    rw [hhead c hc]
    rfl
  · rfl

/-- Reading on behind an aside is reading on with the blanks around it left out. -/
theorem readFrom_around {run aside : List Char} (hrun : '<' ∉ run)
    (hentity : endsInEntity run = false) (haside : IsAside aside) (after : List Char) :
    readFrom limit r (run ++ (aside ++ after)) =
      readFrom limit r (trimEnd run ++ after.dropWhile isSpace) := by
  obtain ⟨hdata, hrest, hdrop⟩ := split_data after
  have hstart : ∀ c ∈ (aside ++ after).head?, c = '<' := by
    cases haside <;> simp
  have hlast : ∀ c ∈ (trimEnd run).getLast?, isSpace c = false := by
    intro c hc
    obtain ⟨hne, rfl⟩ := List.mem_getLast?_eq_getLast hc
    exact Bool.eq_false_iff.2 (List.rdropWhile_last_not isSpace run hne)
  have hhead : ∀ c ∈ ((after.takeWhile (· ≠ '<')).dropWhile isSpace).head?, isSpace c = false := by
    intro c hc
    have hstop := List.head?_dropWhile_not isSpace (after.takeWhile (· ≠ '<'))
    rw [Option.mem_def.1 hc] at hstop
    simpa using hstop
  have hjoined : '<' ∉ trimEnd run ++ (after.takeWhile (· ≠ '<')).dropWhile isSpace := by
    rw [List.mem_append, not_or]
    exact ⟨fun hm => hrun (List.IsPrefix.mem hm (List.rdropWhile_prefix isSpace run)),
      fun hm => hdata (List.dropWhile_subset isSpace hm)⟩
  rw [readFrom_data hrun hstart, hdrop, ← List.append_assoc, readFrom_data hjoined hrest,
    takeData_append ((endsInEntity_trimEnd run).trans hentity) hlast hhead,
    takeData_congr (trim_trimEnd run)]
  cases r.takeData run with
  | error fault => rfl
  | ok r =>
    simp only [Except.bind]
    rw [readFrom_aside haside]
    conv_lhs => rw [← List.takeWhile_append_dropWhile (p := (· ≠ '<')) (l := after)]
    rw [readFrom_data hdata hrest, takeData_congr (trim_dropWhile _)]
    rfl

/-- No blank counts at the place between two texts: one side has nothing but blanks up to the next
markup, or there are none next to the place. -/
def KeepsBlanks (run after : List Char) : Prop :=
  (∀ c ∈ run, isSpace c = true) ∨ (∀ c ∈ after.takeWhile (· ≠ '<'), isSpace c = true) ∨
    (∀ c ∈ run.getLast?, isSpace c = false) ∧ ∀ c ∈ after.head?, isSpace c = false

theorem readFrom_of_keepsBlanks {run after : List Char} (hrun : '<' ∉ run)
    (h : KeepsBlanks run after) :
    readFrom limit r (trimEnd run ++ after.dropWhile isSpace) =
      readFrom limit r (run ++ after) := by
  obtain h | h | ⟨hlast, hhead⟩ := h
  · have hnil : trimEnd run = [] := by
      rw [trimEnd_eq, List.rdropWhile_eq_nil_iff]
      exact h
    have hdrop : readFrom limit r after = readFrom limit r (after.dropWhile isSpace) := by
      conv_lhs => rw [← List.takeWhile_append_dropWhile (p := isSpace) (l := after)]
      exact readFrom_blanks (fun c hc => List.mem_takeWhile_imp hc) _
    rw [hnil, List.nil_append, readFrom_blanks h, hdrop]
  · obtain ⟨hdata, hrest, hdrop⟩ := split_data after
    have hshort : '<' ∉ trimEnd run := fun hm =>
      hrun (List.IsPrefix.mem hm (List.rdropWhile_prefix isSpace run))
    have hlong : '<' ∉ run ++ after.takeWhile (· ≠ '<') := by
      rw [List.mem_append, not_or]
      exact ⟨hrun, hdata⟩
    rw [hdrop, List.dropWhile_eq_nil_iff.2 h, List.nil_append, readFrom_data hshort hrest,
      takeData_congr (trim_trimEnd run), ← takeData_congr (trim_append_blanks h run),
      ← readFrom_data hlong hrest, List.append_assoc, List.takeWhile_append_dropWhile]
  · rw [trimEnd_of_last hlast, dropWhile_of_head hhead]

/-! ## An aside in a document -/

/-- A comment or processing instruction in character data takes the blanks around it with it and
changes nothing else, whether the document can be read or not. Where no blank counts at its place
it changes nothing at all. -/
theorem read_aside (limit : Nat) {before run aside : List Char} (hbefore : Pieces before)
    (hne : before ≠ []) (hrun : '<' ∉ run) (hentity : endsInEntity run = false)
    (haside : IsAside aside) (after : List Char) :
    read limit (String.ofList (before ++ (run ++ (aside ++ after)))) =
        read limit (String.ofList (before ++ (trimEnd run ++ after.dropWhile isSpace))) ∧
      (KeepsBlanks run after →
        read limit (String.ofList (before ++ (run ++ (aside ++ after)))) =
          read limit (String.ofList (before ++ (run ++ after)))) := by
  have haround := hbefore.read_congr hne limit fun r =>
    readFrom_around (r := r) hrun hentity haside after
  refine ⟨haround, fun hkeeps => haround.trans ?_⟩
  exact hbefore.read_congr hne limit fun r => readFrom_of_keepsBlanks hrun hkeeps

/-- A comment between an entity and a letter. -/
theorem read_aside_entity : Pieces ['<', 'a', '>'] ∧ ['<', 'a', '>'] ≠ [] ∧
    '<' ∉ "x &amp;".toList ∧ endsInEntity "x &amp;".toList = false ∧
    IsAside "<!-- c -->".toList ∧ KeepsBlanks "x &amp;".toList "y</a>".toList ∧
    read 256 (String.ofList (['<', 'a', '>'] ++ ("x &amp;".toList ++
      ("<!-- c -->".toList ++ "y</a>".toList)))) =
    read 256 (String.ofList (['<', 'a', '>'] ++ ("x &amp;".toList ++ "y</a>".toList))) := by
  have hpieces : Pieces ['<', 'a', '>'] :=
    @Pieces.cons [] ['a', '>'] [] (by decide) (by decide) .nil
  have hrun : '<' ∉ "x &amp;".toList := by decide
  have hentity : endsInEntity "x &amp;".toList = false := by decide
  have haside : IsAside "<!-- c -->".toList := @IsAside.comment [' ', 'c', ' '] (by decide)
  have hlast : ∀ c ∈ "x &amp;".toList.getLast?, isSpace c = false := fun c hc =>
    Option.some.inj (show some ';' = some c from hc) ▸ rfl
  have hhead : ∀ c ∈ "y</a>".toList.head?, isSpace c = false := fun c hc =>
    Option.some.inj (show some 'y' = some c from hc) ▸ rfl
  have hkeeps : KeepsBlanks "x &amp;".toList "y</a>".toList := .inr (.inr ⟨hlast, hhead⟩)
  have hread := read_aside 256 hpieces (by decide) hrun hentity haside "y</a>".toList
  exact ⟨hpieces, by decide, hrun, hentity, haside, hkeeps, hread.2 hkeeps⟩

/-- A comment behind a blank: the blank is lost, though the run goes on behind the comment. -/
theorem aside_cuts_blank : ¬ ∀ (limit : Nat) (before run aside after : List Char) (document : Tree),
    Pieces before → before ≠ [] → '<' ∉ run → endsInEntity run = false → IsAside aside →
    read limit (String.ofList (before ++ (run ++ after))) = .ok document →
    read limit (String.ofList (before ++ (run ++ (aside ++ after)))) = .ok document := by
  intro h
  have hplain : (read 256 (String.ofList (['<', 'a', '>'] ++ (['x', ' '] ++
      "y</a>".toList)))).toOption.bind (fun t => t.marker? "a") = some "x y" := by
    decide +kernel
  have hcut : (read 256 (String.ofList (['<', 'a', '>'] ++ (['x', ' '] ++
      ("<!-- c -->".toList ++ "y</a>".toList))))).toOption.bind (fun t => t.marker? "a") =
        some "xy" := by
    decide +kernel
  have hpieces : Pieces ['<', 'a', '>'] :=
    @Pieces.cons [] ['a', '>'] [] (by decide) (by decide) .nil
  have haside : IsAside "<!-- c -->".toList := @IsAside.comment [' ', 'c', ' '] (by decide)
  obtain ⟨document, hdocument, hmarker⟩ := Option.bind_eq_some_iff.1 hplain
  rw [← Encoder.eq_ok_iff_toOption] at hdocument
  rw [h 256 ['<', 'a', '>'] ['x', ' '] _ _ document hpieces (by decide) (by decide) (by decide)
    haside hdocument] at hcut
  exact absurd (hmarker.symm.trans hcut) (by decide)

end TaggedMarkup.Markup
