import TaggedMarkup.Text.Ranges
/-!
# Strings and blanks in TOML texts

Each reader takes a text after its opening mark and returns what it read and what follows.
-/
namespace TaggedMarkup.Toml

def isSpace (c : Char) : Bool := c == ' ' || c == '\t'

def skipSpaces (s : List Char) : List Char := s.dropWhile isSpace

/-- Characters of comments and strings: tabs and everything that is no control. -/
def isPlain (c : Char) : Bool := c == '\t' || (32 ≤ c.toNat && c.toNat ≠ 127)

/-- What follows a line end. -/
def dropNewline? : List Char → Option (List Char)
  | '\n' :: rest => some rest
  | '\r' :: '\n' :: rest => some rest
  | _ => none

def skipComment : List Char → List Char
  | '#' :: rest => rest.dropWhile isPlain
  | s => s

/-- What follows the rest of a line, which holds at most a comment. -/
def endLine? (s : List Char) : Option (List Char) :=
  match skipComment (skipSpaces s) with
  | [] => some []
  | rest => dropNewline? rest

def hexValue? (c : Char) : Option Nat :=
  if c.isDigit then some (c.toNat - '0'.toNat)
  else if 'a' ≤ c ∧ c ≤ 'f' then some (c.toNat - 'a'.toNat + 10)
  else if 'A' ≤ c ∧ c ≤ 'F' then some (c.toNat - 'A'.toNat + 10)
  else none

/-- The character whose code point hexadecimal digits give. -/
def ofHex? (digits : List Char) : Option Char := do
  let n ← digits.foldlM (fun n c => (hexValue? c).map (16 * n + ·)) 0
  if n.isValidChar then some (Char.ofNat n) else none

def escaped? : Char → Option Char
  | 'b' => some '\x08'
  | 't' => some '\t'
  | 'n' => some '\n'
  | 'f' => some '\x0c'
  | 'r' => some '\r'
  | '"' => some '"'
  | '\\' => some '\\'
  | _ => none

/-- The character that an escape stands for, after its backslash. -/
def readEscape? : List Char → Option (Char × List Char)
  | 'u' :: rest =>
    if rest.length < 4 then none else (ofHex? (rest.take 4)).map fun c => (c, rest.drop 4)
  | 'U' :: rest =>
    if rest.length < 8 then none else (ofHex? (rest.take 8)).map fun c => (c, rest.drop 8)
  | c :: rest => (escaped? c).map fun d => (d, rest)
  | [] => none

theorem length_of_readEscape? {s rest : List Char} {c : Char}
    (h : readEscape? s = some (c, rest)) : rest.length < s.length := by
  unfold readEscape? at h
  split at h
  · split at h
    · simp at h
    · obtain ⟨_, _, hr⟩ := Option.map_eq_some_iff.mp h
      simp only [Prod.mk.injEq] at hr
      rw [← hr.2]
      simp only [List.length_drop, List.length_cons]
      omega
  · split at h
    · simp at h
    · obtain ⟨_, _, hr⟩ := Option.map_eq_some_iff.mp h
      simp only [Prod.mk.injEq] at hr
      rw [← hr.2]
      simp only [List.length_drop, List.length_cons]
      omega
  · obtain ⟨_, _, hr⟩ := Option.map_eq_some_iff.mp h
    simp only [Prod.mk.injEq] at hr
    rw [← hr.2]
    simp
  · simp at h

/-- A string on one line with escapes. -/
def readBasic? : List Char → Option (List Char × List Char)
  | [] => none
  | c :: s =>
    if c = '"' then some ([], s)
    else if c = '\\' then
      match _he : readEscape? s with
      | none => none
      | some (d, rest) => (readBasic? rest).map fun (text, rest) => (d :: text, rest)
    else if isPlain c then (readBasic? s).map fun (text, rest) => (c :: text, rest)
    else none
termination_by s => s.length
decreasing_by
  · have := length_of_readEscape? _he
    simp only [List.length_cons]
    omega
  · simp

/-- A string on one line without escapes. -/
def readLiteral? : List Char → Option (List Char × List Char)
  | [] => none
  | c :: s =>
    if c = '\'' then some ([], s)
    else if isPlain c then (readLiteral? s).map fun (text, rest) => (c :: text, rest)
    else none

/-- Blanks and line ends, as far as they go. -/
def skipBlankLines : List Char → List Char
  | [] => []
  | '\r' :: '\n' :: rest => skipBlankLines rest
  | c :: rest => if isSpace c ∨ c = '\n' then skipBlankLines rest else c :: rest

theorem length_skipBlankLines_le (s : List Char) : (skipBlankLines s).length ≤ s.length := by
  fun_induction skipBlankLines s with
  | case1 => simp
  | case2 rest ih =>
    simp only [List.length_cons]
    omega
  | case3 c rest _ _ ih =>
    simp only [List.length_cons]
    omega
  | case4 => simp

/-- What follows a backslash that ends a line: the text goes on at its next visible character. -/
def continueLine? (s : List Char) : Option (List Char) :=
  (dropNewline? (skipSpaces s)).map skipBlankLines

theorem length_of_continueLine? {s rest : List Char} (h : continueLine? s = some rest) :
    rest.length ≤ s.length := by
  obtain ⟨t, ht, hr⟩ := Option.map_eq_some_iff.mp h
  have h1 := (List.dropWhile_sublist (p := isSpace) (l := s)).length_le
  have h2 := length_skipBlankLines_le t
  have h3 : t.length ≤ (skipSpaces s).length := by
    unfold dropNewline? at ht
    split at ht <;> simp_all
    omega
  unfold skipSpaces at h3
  rw [← hr]
  omega

/-- A string over several lines with escapes. Three quotes end it, and up to two more before them
are text. -/
def readLines? : List Char → Option (List Char × List Char)
  | '"' :: '"' :: '"' :: '"' :: '"' :: s => some (['"', '"'], s)
  | '"' :: '"' :: '"' :: '"' :: s => some (['"'], s)
  | '"' :: '"' :: '"' :: s => some ([], s)
  | '\\' :: s =>
    match _hc : continueLine? s with
    | some rest => readLines? rest
    | none =>
      match _he : readEscape? s with
      | none => none
      | some (d, rest) => (readLines? rest).map fun (text, rest) => (d :: text, rest)
  | '\r' :: '\n' :: s => (readLines? s).map fun (text, rest) => ('\n' :: text, rest)
  | c :: s =>
    if isPlain c ∨ c = '\n' then (readLines? s).map fun (text, rest) => (c :: text, rest) else none
  | [] => none
termination_by s => s.length
decreasing_by
  · have := length_of_continueLine? _hc
    simp only [List.length_cons]
    omega
  · have := length_of_readEscape? _he
    simp only [List.length_cons]
    omega
  · simp only [List.length_cons]
    omega
  · simp

/-- A string over several lines without escapes. -/
def readLiteralLines? : List Char → Option (List Char × List Char)
  | '\'' :: '\'' :: '\'' :: '\'' :: '\'' :: s => some (['\'', '\''], s)
  | '\'' :: '\'' :: '\'' :: '\'' :: s => some (['\''], s)
  | '\'' :: '\'' :: '\'' :: s => some ([], s)
  | '\r' :: '\n' :: s => (readLiteralLines? s).map fun (text, rest) => ('\n' :: text, rest)
  | c :: s =>
    if isPlain c ∨ c = '\n' then (readLiteralLines? s).map fun (text, rest) => (c :: text, rest)
    else none
  | [] => none

/-- A line end right after the opening quotes is not part of the text. -/
def dropFirstNewline (s : List Char) : List Char := (dropNewline? s).getD s

/-- A string of any of the four forms. -/
def readString? : List Char → Option (List Char × List Char)
  | '"' :: '"' :: '"' :: s => readLines? (dropFirstNewline s)
  | '"' :: s => readBasic? s
  | '\'' :: '\'' :: '\'' :: s => readLiteralLines? (dropFirstNewline s)
  | '\'' :: s => readLiteral? s
  | _ => none

end TaggedMarkup.Toml
