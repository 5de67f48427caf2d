import TaggedMarkup.Proofs.Markup.Scanning
/-!
# Pieces of markup

A token depends on no more of the text than it takes, and a run of character data lasts to the next
markup. So a text that ends behind a piece of markup is read alike whatever follows it, and what
follows may be replaced by anything that reads alike.
-/
namespace TaggedMarkup.Markup

/-! ## Tokens and what follows them -/

theorem dropMark?_eq_some_iff {mark s rest : List Char} :
    dropMark? mark s = some rest ↔ s = mark ++ rest := by
  fun_induction dropMark? mark s with
  | case1 s => simp
  | case2 m mark s ih => simp [ih]
  | case3 m mark c s hc => simp [Ne.symm hc]
  | case4 m mark => simp

theorem dropMark?_eq_none_iff {mark s : List Char} : dropMark? mark s = none ↔ ¬ mark <+: s := by
  rw [Option.eq_none_iff_forall_ne_some]
  constructor
  · rintro h ⟨rest, hrest⟩
    exact h rest (dropMark?_eq_some_iff.2 hrest.symm)
  · intro h rest hrest
    exact h ⟨rest, (dropMark?_eq_some_iff.1 hrest).symm⟩

theorem eq_of_splitAtMark? {mark s before rest : List Char}
    (h : splitAtMark? mark s = some (before, rest)) : s = before ++ (mark ++ rest) := by
  fun_induction splitAtMark? mark s generalizing before with
  | case1 => cases h
  | case2 c s rest' hm =>
    obtain ⟨rfl, rfl⟩ := Prod.mk.inj (Option.some.inj h)
    rw [dropMark?_eq_some_iff] at hm
    exact hm
  | case3 c s hm ih =>
    obtain ⟨⟨b, r⟩, hb, he⟩ := Option.map_eq_some_iff.1 h
    obtain ⟨rfl, rfl⟩ := Prod.mk.inj he
    rw [ih hb]
    rfl

/-- A mark that is found ends the search, whatever follows. -/
theorem splitAtMark?_append {mark s before rest : List Char}
    (h : splitAtMark? mark s = some (before, rest)) (more : List Char) :
    splitAtMark? mark (s ++ more) = some (before, rest ++ more) := by
  fun_induction splitAtMark? mark s generalizing before with
  | case1 => cases h
  | case2 c s rest' hm =>
    obtain ⟨rfl, rfl⟩ := Prod.mk.inj (Option.some.inj h)
    have hdrop : dropMark? mark (c :: (s ++ more)) = some (rest' ++ more) := by
      rw [dropMark?_eq_some_iff, ← List.cons_append, dropMark?_eq_some_iff.1 hm, List.append_assoc]
    rw [List.cons_append, splitAtMark?, hdrop]
  | case3 c s hm ih =>
    obtain ⟨⟨b, r⟩, hb, he⟩ := Option.map_eq_some_iff.1 h
    obtain ⟨rfl, rfl⟩ := Prod.mk.inj he
    have hlength : mark.length ≤ (c :: s).length := by
      rw [eq_of_splitAtMark? hb]
      simp only [List.length_cons, List.length_append]
      omega
    -- The mark is no longer than what is left, so nothing behind it can complete it.
    have hdrop : dropMark? mark (c :: (s ++ more)) = none := by
      rw [dropMark?_eq_none_iff] at hm ⊢
      intro hp
      exact hm (List.prefix_of_prefix_length_le hp (List.prefix_append (c :: s) more) hlength)
    rw [List.cons_append, splitAtMark?, hdrop]
    simp only [ih hb, Option.map_some]

/-- A scan that ends at a character, or goes on behind it, goes on alike before a longer rest. -/
theorem ends_or_continues_append {ends : Prop} [Decidable ends] {c : Char}
    {s content rest more : List Char} {found found' : Option (List Char × List Char)}
    (h : (if ends then some ([], s)
      else found.map fun (content, rest) => (c :: content, rest)) = some (content, rest))
    (hfound : ∀ content, found = some (content, rest) → found' = some (content, rest ++ more)) :
    (if ends then some ([], s ++ more)
      else found'.map fun (content, rest) => (c :: content, rest)) =
        some (content, rest ++ more) := by
  split
  · next hend =>
    rw [if_pos hend] at h
    obtain ⟨rfl, rfl⟩ := Prod.mk.inj (Option.some.inj h)
    rfl
  · next hend =>
    rw [if_neg hend] at h
    obtain ⟨⟨b, r⟩, hb, he⟩ := Option.map_eq_some_iff.1 h
    obtain ⟨rfl, rfl⟩ := Prod.mk.inj he
    rw [hfound b hb]
    rfl

theorem splitTag?_append {quote : Option Char} {s content rest : List Char}
    (h : splitTag? quote s = some (content, rest)) (more : List Char) :
    splitTag? quote (s ++ more) = some (content, rest ++ more) := by
  induction s generalizing quote content with
  | nil => cases h
  | cons c s ih => exact ends_or_continues_append h fun _ hb => ih hb

theorem splitDoctype?_append {depth : Nat} {s content rest : List Char}
    (h : splitDoctype? depth s = some (content, rest)) (more : List Char) :
    splitDoctype? depth (s ++ more) = some (content, rest ++ more) := by
  induction s generalizing depth content with
  | nil => cases h
  | cons c s ih => exact ends_or_continues_append h fun _ hb => ih hb

namespace Token

theorem delimited_append {make : List Char → Token} {found found' : Option (List Char × List Char)}
    {more : List Char} (h : (delimited make found).1 ≠ malformed)
    (hfound : ∀ content rest, found = some (content, rest) →
      found' = some (content, rest ++ more)) :
    delimited make found' = ((delimited make found).1, (delimited make found).2 ++ more) := by
  match found with
  | some (content, rest) => rw [hfound content rest rfl]; rfl
  | none => exact absurd rfl h

theorem ofMarkup_tag {c : Char} (h1 : c ≠ '!') (h2 : c ≠ '?') (h3 : c ≠ '/') (s : List Char) :
    ofMarkup (c :: s) = delimited ofTag (splitTag? none (c :: s)) := by
  unfold ofMarkup
  split <;> simp_all

theorem ofDoctype_append {s : List Char} (h : (ofDoctype s).1 ≠ malformed) (more : List Char) :
    ofDoctype (s ++ more) = ((ofDoctype s).1, (ofDoctype s).2 ++ more) := by
  unfold ofDoctype at h ⊢
  split at h
  · next hmark =>
    have hlength : 7 ≤ s.length := by
      have hlen := congrArg List.length hmark
      simp only [List.length_map, List.length_take, doctypeMark, List.length_cons,
        List.length_nil] at hlen
      omega
    rw [List.take_append_of_le_length hlength, List.drop_append_of_le_length hlength, if_pos hmark,
      if_pos hmark]
    exact delimited_append h fun content rest hsplit => splitDoctype?_append hsplit more
  · exact absurd rfl h

/-- What starts a document type starts no comment or section. -/
theorem head_of_ofDoctype {s : List Char} (h : (ofDoctype s).1 ≠ malformed) :
    ∃ c t, s = c :: t ∧ c ≠ '-' ∧ c ≠ '[' := by
  unfold ofDoctype at h
  split at h
  · next hmark =>
    cases s with
    | nil => cases hmark
    | cons c t =>
      have hc : c.toLower = 'd' := by
        simpa [doctypeMark] using congrArg List.head? hmark
      refine ⟨c, t, rfl, ?_, ?_⟩ <;> (rintro rfl; exact absurd hc (by decide))
  · exact absurd rfl h

/-- A token depends on no more of the text than it takes. -/
theorem ofMarkup_append {s : List Char} (h : (ofMarkup s).1 ≠ malformed) (more : List Char) :
    ofMarkup (s ++ more) = ((ofMarkup s).1, (ofMarkup s).2 ++ more) := by
  have hsection : ∀ {make : List Char → Token} {mark t : List Char},
      (delimited make (splitAtMark? mark t)).1 ≠ malformed →
      delimited make (splitAtMark? mark (t ++ more)) =
        ((delimited make (splitAtMark? mark t)).1,
          (delimited make (splitAtMark? mark t)).2 ++ more) :=
    fun h => delimited_append h fun _ _ hsplit => splitAtMark?_append hsplit more
  have htag : ∀ {make : List Char → Token} {t : List Char},
      (delimited make (splitTag? none t)).1 ≠ malformed →
      delimited make (splitTag? none (t ++ more)) =
        ((delimited make (splitTag? none t)).1, (delimited make (splitTag? none t)).2 ++ more) :=
    fun h => delimited_append h fun _ _ hsplit => splitTag?_append hsplit more
  revert h
  fun_cases ofMarkup s with
  | case1 t => exact hsection
  | case2 t => exact hsection
  | case3 t hcomment hverbatim =>
    intro h
    obtain ⟨c, t, rfl, hdash, hbracket⟩ := head_of_ofDoctype h
    rw [← ofDoctype_append h more, List.cons_append, List.cons_append, ofMarkup]
    · simp [hdash]
    · simp [hbracket]
  | case4 t => exact fun h => absurd rfl h
  | case5 t hend =>
    intro h
    cases t with
    | nil => exact absurd rfl h
    | cons c t =>
      rw [← hsection h, List.cons_append, List.cons_append, ofMarkup]
      exact fun tail htail => hend t (by rw [(List.cons.inj htail).1])
  | case6 t => exact htag
  | case7 s h1 h2 h3 h4 h5 h6 =>
    intro h
    cases s with
    | nil => exact absurd rfl h
    | cons c t =>
      rw [← htag h, List.cons_append, ofMarkup_tag]
      · exact fun hc => h3 t (by rw [hc])
      · exact fun hc => h5 t (by rw [hc])
      · exact fun hc => h6 t (by rw [hc])

end Token

/-! ## Texts of whole pieces -/

/-- A text that is one piece of markup behind its `<`: a tag, a section, or one to be skipped. -/
def IsPiece (piece : List Char) : Prop :=
  (Token.ofMarkup piece).1 ≠ .malformed ∧ (Token.ofMarkup piece).2 = []

instance (piece : List Char) : Decidable (IsPiece piece) :=
  inferInstanceAs (Decidable (_ ∧ _))

/-- A text of whole pieces of markup with character data before each of them. -/
inductive Pieces : List Char → Prop
  | nil : Pieces []
  | cons {data piece rest : List Char} (hdata : '<' ∉ data) (hpiece : IsPiece piece)
      (h : Pieces rest) : Pieces (data ++ '<' :: (piece ++ rest))

section

variable {limit : Nat} {r : Reader}

theorem readFrom_piece {piece : List Char} (h : IsPiece piece) (rest : List Char) :
    readFrom limit r ('<' :: (piece ++ rest)) =
      (Reader.step limit r (Token.ofMarkup piece).1).bind fun r => readFrom limit r rest := by
  rw [readFrom_cons (by decide), Token.ofText, Token.ofMarkup_append h.1, h.2, List.nil_append]

/-- What a run of character data does to the open elements. -/
def Reader.takeData (r : Reader) (data : List Char) : Except Fault Reader :=
  if trim data = [] then .ok r
  else r.appendText .textOutside ((unescape? (trim data)).map String.ofList)

/-- A run of character data lasts to the next markup or to the end. -/
theorem readFrom_data {data rest : List Char} (hdata : '<' ∉ data)
    (hrest : ∀ c ∈ rest.head?, c = '<') : readFrom limit r (data ++ rest) =
      (r.takeData data).bind fun r => readFrom limit r rest := by
  have hsplit : data.takeWhile isSpace ++ (data.dropWhile isSpace ++ rest) = data ++ rest := by
    rw [← List.append_assoc, List.takeWhile_append_dropWhile]
  rw [← hsplit, readFrom_blanks fun c hc => List.mem_takeWhile_imp hc, Reader.takeData, trim]
  cases hs : data.dropWhile isSpace with
  | nil => rfl
  | cons c s =>
    have hc : isSpace c = false := by
      have hhead := List.head?_dropWhile_not isSpace data
      rw [hs] at hhead
      simpa using hhead
    have hplain : ∀ d ∈ c :: s, decide (d ≠ '<') = true := by
      intro d hd
      rw [decide_eq_true_iff]
      rintro rfl
      exact hdata (List.dropWhile_subset isSpace (hs ▸ hd))
    have hend : trimEnd (c :: s) ≠ [] := by
      rw [trimEnd_eq, ne_eq, List.rdropWhile_eq_nil_iff]
      exact fun hall => Bool.false_ne_true (hc.symm.trans (hall c List.mem_cons_self))
    rw [List.cons_append, readFrom_cons hc,
      Token.ofText_data (by simpa using hplain c List.mem_cons_self), ← List.cons_append,
      List.takeWhile_append_of_pos hplain, List.dropWhile_append_of_pos hplain,
      if_neg hend]
    cases rest with
    | nil => simp [Reader.step]
    | cons d rest =>
      obtain rfl : d = '<' := hrest d rfl
      simp [Reader.step]

theorem Pieces.readFrom_congr {before s s' : List Char} (h : Pieces before)
    (hs : ∀ r, readFrom limit r s = readFrom limit r s') :
    readFrom limit r (before ++ s) = readFrom limit r (before ++ s') := by
  induction h generalizing r with
  | nil => exact hs r
  | @cons data piece rest hdata hpiece _ ih =>
    have hread : ∀ s, readFrom limit r (data ++ '<' :: (piece ++ rest) ++ s) =
        (r.takeData data).bind fun r => (Reader.step limit r (Token.ofMarkup piece).1).bind fun r =>
          readFrom limit r (rest ++ s) := by
      intro s
      rw [List.append_assoc, readFrom_data hdata (by simp)]
      simp only [List.cons_append, List.append_assoc, readFrom_piece hpiece]
    simp only [hread, ih]

end

/-! ## From the start of a document -/

/-- A text without the byte order mark that it may start with. -/
def unmarked : List Char → List Char
  | '\uFEFF' :: s => s
  | s => s

theorem unmarked_cons {c : Char} (hc : c ≠ '\uFEFF') (s : List Char) :
    unmarked (c :: s) = c :: s := by
  rw [unmarked]
  exact fun t ht => hc (List.cons.inj ht).1

theorem read_ofList (limit : Nat) (s : List Char) : read limit (String.ofList s) =
    (readFrom limit Reader.start (unmarked s)).bind Reader.finish := by
  have htokens : Token.ofDocument (String.ofList s) = Token.all (unmarked s) := by
    unfold Token.ofDocument
    rw [String.toList_ofList]
    split
    · rfl
    · next hmark =>
      cases s with
      | nil => rfl
      | cons c s => rw [unmarked_cons fun hc => hmark s (by rw [hc])]
  rw [read, htokens]
  rfl

/-- A mark at the start is no part of the first piece. -/
theorem Pieces.unmarked {before : List Char} (h : Pieces before) (hne : before ≠ [])
    (s : List Char) :
    Pieces (unmarked before) ∧ unmarked (before ++ s) = unmarked before ++ s := by
  cases h with
  | nil => exact absurd rfl hne
  | @cons data piece rest hdata hpiece h =>
    cases data with
    | nil => exact ⟨.cons hdata hpiece h, rfl⟩
    | cons c data =>
      by_cases hc : c = '\uFEFF'
      · subst hc
        exact ⟨.cons (fun hm => hdata (List.mem_cons_of_mem _ hm)) hpiece h, rfl⟩
      · simp only [List.cons_append, unmarked_cons hc, and_true]
        exact .cons hdata hpiece h

theorem Pieces.read_congr {before s s' : List Char} (h : Pieces before) (hne : before ≠ [])
    (limit : Nat) (hs : ∀ r, readFrom limit r s = readFrom limit r s') :
    read limit (String.ofList (before ++ s)) = read limit (String.ofList (before ++ s')) := by
  rw [read_ofList, read_ofList, (h.unmarked hne s).2, (h.unmarked hne s').2,
    (h.unmarked hne s).1.readFrom_congr hs]

end TaggedMarkup.Markup
