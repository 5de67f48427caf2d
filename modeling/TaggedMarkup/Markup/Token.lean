import TaggedMarkup.Entries
import TaggedMarkup.Markup.Escape
/-!
# Tokens of markup

A text of markup is a run of tags, character data and sections to be skipped. Names are not
checked. A token takes at least one character, and a text that cannot be read ends in the token
`malformed`, so the tokens before it are still seen in order.
-/
namespace TaggedMarkup.Markup

/-- Attributes in order, `none` if they are not well formed. -/
abbrev Attributes := Option (Entries String)

inductive Token where
  | opening (name : String) (attributes : Attributes)
  | selfClosing (name : String) (attributes : Attributes)
  | closing (name : String)
  /-- A trimmed run of character data, `none` if an entity in it has no meaning. -/
  | characters (text : Option String)
  /-- Character data that was written without escapes. -/
  | verbatim (text : String)
  /-- A comment, processing instruction, declaration or document type. -/
  | skipped
  | malformed
  deriving DecidableEq

/-- The blanks of markup: space, tab and line ends. -/
def isSpace (c : Char) : Bool := c == ' ' || c == '\t' || c == '\n' || c == '\r'

def trimEnd (s : List Char) : List Char := (s.reverse.dropWhile isSpace).reverse

/-- What follows a mark at the start of a text. -/
def dropMark? : List Char → List Char → Option (List Char)
  | [], s => some s
  | m :: mark, c :: s => if m = c then dropMark? mark s else none
  | _ :: _, [] => none

/-- The text before the first occurrence of a mark, and the text behind it. -/
def splitAtMark? (mark : List Char) : List Char → Option (List Char × List Char)
  | [] => none
  | c :: s =>
    match dropMark? mark (c :: s) with
    | some rest => some ([], rest)
    | none => (splitAtMark? mark s).map fun (before, rest) => (c :: before, rest)

/-- The content of a tag up to the first `>` outside quotes; `quote` is the open one. -/
def splitTag? (quote : Option Char) : List Char → Option (List Char × List Char)
  | [] => none
  | c :: s =>
    if quote = none ∧ c = '>' then some ([], s)
    else
      let next := if quote = some c then none
        else if quote = none ∧ (c = '"' ∨ c = '\'') then some c else quote
      (splitTag? next s).map fun (content, rest) => (c :: content, rest)

/-- The content of a document type up to the `>` that balances the inner ones. -/
def splitDoctype? (depth : Nat) : List Char → Option (List Char × List Char)
  | [] => none
  | c :: s =>
    if depth = 0 ∧ c = '>' then some ([], s)
    else
      let next := if c = '<' then depth + 1 else if c = '>' then depth - 1 else depth
      (splitDoctype? next s).map fun (content, rest) => (c :: content, rest)

/-- Where a scan of attributes stands; parts are held in reverse. -/
inductive AttributeScan where
  | between
  | key (key : List Char)
  | afterKey (key : List Char)
  | beforeValue (key : List Char)
  | value (key : List Char) (quote : Char) (value : List Char)

/-- Names and raw values. A name takes its first character whatever it is, and then runs to the next
`=` or blank; every value is quoted. -/
def scanAttributes? : AttributeScan → List Char → Option (List (List Char × List Char))
  | .between, [] => some []
  | _, [] => none
  | .between, c :: s => scanAttributes? (if isSpace c then .between else .key [c]) s
  | .key k, c :: s =>
    scanAttributes? (if c = '=' then .beforeValue k else if isSpace c then .afterKey k
      else .key (c :: k)) s
  | .afterKey k, c :: s =>
    if c = '=' then scanAttributes? (.beforeValue k) s
    else if isSpace c then scanAttributes? (.afterKey k) s
    else none
  | .beforeValue k, c :: s =>
    if c = '"' ∨ c = '\'' then scanAttributes? (.value k c []) s
    else if isSpace c then scanAttributes? (.beforeValue k) s
    else none
  | .value k quote v, c :: s =>
    if c = quote then (scanAttributes? .between s).map ((k.reverse, v.reverse) :: ·)
    else scanAttributes? (.value k quote (c :: v)) s

/-- The attributes of a tag; names are distinct and values unescaped. -/
def attributes? (s : List Char) : Attributes := do
  let raw ← scanAttributes? .between s
  let pairs ← raw.mapM fun (k, v) => (unescape? v).map fun v => (String.ofList k, String.ofList v)
  if (pairs.map Prod.fst).Nodup then some pairs else none

namespace Token

/-- The tag with this content between its brackets. -/
def ofTag (content : List Char) : Token :=
  let name := fun c => String.ofList (c.takeWhile fun c => !isSpace c)
  let attributes := fun c => attributes? (c.dropWhile fun c => !isSpace c)
  if content.getLast? = some '/' then selfClosing (name content.dropLast) (attributes content.dropLast)
  else opening (name content) (attributes content)

/-- The closing tag of a name; blanks may follow the name. -/
def ofClosingTag (content : List Char) : Token :=
  closing (String.ofList (if content.all isSpace then content else trimEnd content))

/-- The token made of the content before a mark and what follows; without the mark the text ends. -/
def delimited (make : List Char → Token) : Option (List Char × List Char) → Token × List Char
  | some (content, rest) => (make content, rest)
  | none => (malformed, [])

def doctypeMark : List Char := ['d', 'o', 'c', 't', 'y', 'p', 'e']

/-- A document type after `<!`; its mark has letters of any case and a name must follow. -/
def ofDoctype (s : List Char) : Token × List Char :=
  if (s.take 7).map Char.toLower = doctypeMark then
    delimited (fun content => if content.all isSpace then malformed else skipped)
      (splitDoctype? 0 (s.drop 7))
  else (malformed, [])

/-- The token after `<`. -/
def ofMarkup : List Char → Token × List Char
  | '!' :: '-' :: '-' :: s => delimited (fun _ => skipped) (splitAtMark? ['-', '-', '>'] s)
  | '!' :: '[' :: 'C' :: 'D' :: 'A' :: 'T' :: 'A' :: '[' :: s =>
    delimited (fun content => verbatim (String.ofList content)) (splitAtMark? [']', ']', '>'] s)
  | '!' :: s => ofDoctype s
  | '?' :: '>' :: _ => (malformed, [])
  | '?' :: s => delimited (fun _ => skipped) (splitAtMark? ['?', '>'] s)
  | '/' :: s => delimited ofClosingTag (splitTag? none s)
  | s => delimited ofTag (splitTag? none s)

/-- The token at the start of a text that is neither empty nor blank at its start. -/
def ofText : List Char → Token × List Char
  | '<' :: s => ofMarkup s
  | s =>
    let run := s.takeWhile (· ≠ '<')
    (characters ((unescape? (trimEnd run)).map String.ofList), s.dropWhile (· ≠ '<'))

theorem length_of_dropMark? {mark s rest : List Char} (h : dropMark? mark s = some rest) :
    rest.length + mark.length = s.length := by
  fun_induction dropMark? mark s with
  | case1 s => simp_all
  | case2 m mark s ih =>
    have := ih h
    simp only [List.length_cons]
    omega
  | case3 => simp at h
  | case4 => simp at h

theorem length_of_splitAtMark? {mark s before rest : List Char}
    (h : splitAtMark? mark s = some (before, rest)) : rest.length ≤ s.length := by
  fun_induction splitAtMark? mark s generalizing before with
  | case1 => simp at h
  | case2 c s rest' hm =>
    have := length_of_dropMark? hm
    simp only [Option.some.injEq, Prod.mk.injEq] at h
    rw [← h.2]
    omega
  | case3 c s hm ih =>
    obtain ⟨⟨b, r⟩, hb, hr⟩ := Option.map_eq_some_iff.mp h
    simp only [Prod.mk.injEq] at hr
    have := ih (hr.2 ▸ hb)
    simp only [List.length_cons]
    omega

theorem length_of_splitTag? {s content rest : List Char} {quote : Option Char}
    (h : splitTag? quote s = some (content, rest)) : rest.length ≤ s.length := by
  induction s generalizing quote content with
  | nil => simp [splitTag?] at h
  | cons c s ih =>
    unfold splitTag? at h
    split at h
    · simp only [Option.some.injEq, Prod.mk.injEq] at h
      rw [← h.2]
      simp
    · obtain ⟨⟨b, r⟩, hb, hr⟩ := Option.map_eq_some_iff.mp h
      simp only [Prod.mk.injEq] at hr
      have := ih (hr.2 ▸ hb)
      simp only [List.length_cons]
      omega

theorem length_of_splitDoctype? {s content rest : List Char} {depth : Nat}
    (h : splitDoctype? depth s = some (content, rest)) : rest.length ≤ s.length := by
  induction s generalizing depth content with
  | nil => simp [splitDoctype?] at h
  | cons c s ih =>
    unfold splitDoctype? at h
    split at h
    · simp only [Option.some.injEq, Prod.mk.injEq] at h
      rw [← h.2]
      simp
    · obtain ⟨⟨b, r⟩, hb, hr⟩ := Option.map_eq_some_iff.mp h
      simp only [Prod.mk.injEq] at hr
      have := ih (hr.2 ▸ hb)
      simp only [List.length_cons]
      omega

theorem length_delimited_le (make : List Char → Token) {n : Nat}
    {found : Option (List Char × List Char)}
    (h : ∀ content rest, found = some (content, rest) → rest.length ≤ n) :
    (delimited make found).2.length ≤ n := by
  match found with
  | some (content, rest) => exact h content rest rfl
  | none => exact Nat.zero_le n

theorem length_ofDoctype_le (s : List Char) : (ofDoctype s).2.length ≤ s.length := by
  unfold ofDoctype
  split
  · refine length_delimited_le _ fun content rest h => ?_
    have := length_of_splitDoctype? h
    simp only [List.length_drop] at this
    omega
  · exact Nat.zero_le _

theorem length_ofMarkup_le (s : List Char) : (ofMarkup s).2.length ≤ s.length := by
  unfold ofMarkup
  split
  · refine length_delimited_le _ fun content rest h => ?_
    have := length_of_splitAtMark? h
    simp only [List.length_cons]
    omega
  · refine length_delimited_le _ fun content rest h => ?_
    have := length_of_splitAtMark? h
    simp only [List.length_cons]
    omega
  · next s _ _ =>
    have := length_ofDoctype_le s
    simp only [List.length_cons]
    omega
  · exact Nat.zero_le _
  · refine length_delimited_le _ fun content rest h => ?_
    have := length_of_splitAtMark? h
    simp only [List.length_cons]
    omega
  · refine length_delimited_le _ fun content rest h => ?_
    have := length_of_splitTag? h
    simp only [List.length_cons]
    omega
  · exact length_delimited_le _ fun content rest h => length_of_splitTag? h

/-- A token takes at least one character. -/
theorem length_ofText_lt {s : List Char} (h : s ≠ []) : (ofText s).2.length < s.length := by
  cases s with
  | nil => exact absurd rfl h
  | cons c s =>
    by_cases hc : c = '<'
    · subst hc
      have := length_ofMarkup_le s
      simp only [ofText, List.length_cons]
      omega
    · have hle := (List.dropWhile_sublist (p := (· ≠ '<')) (l := s)).length_le
      have heq : (ofText (c :: s)).2 = s.dropWhile (· ≠ '<') := by
        unfold ofText
        split
        · next h' => exact absurd (List.cons.inj h').1 hc
        · simp [hc]
      rw [heq, List.length_cons]
      omega

/-- The tokens of a text. Blanks before a token are not part of it. -/
def all (s : List Char) : List Token :=
  if _h : s.dropWhile isSpace = [] then []
  else (ofText (s.dropWhile isSpace)).1 :: all (ofText (s.dropWhile isSpace)).2
termination_by s.length
decreasing_by
  have h1 := length_ofText_lt _h
  have h2 := (List.dropWhile_sublist (p := isSpace) (l := s)).length_le
  omega

/-- The tokens of a document, which may start with a byte order mark. -/
def ofDocument (text : String) : List Token :=
  match text.toList with
  | '\uFEFF' :: s => all s
  | s => all s

end Token

end TaggedMarkup.Markup
