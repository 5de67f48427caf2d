import TaggedMarkup.Toml.Scalar
import TaggedMarkup.Toml.Text
/-!
# Reading TOML texts

A text is read line by line: blank lines, headers that name the current table, and keys with
values. Values nest to a fixed depth, which bounds the recursion; a list inside a value is bounded
by the length of the text.
-/
namespace TaggedMarkup.Toml

/-- Arrays and inline tables within each other, and parts of a dotted key. -/
def nestingLimit : Nat := 79

def isBareKeyChar (c : Char) : Bool := c.isAlphanum || c == '_' || c == '-'

/-- One part of a key. -/
def readKeyPart? : List Char → Option (String × List Char)
  | '"' :: s => (readBasic? s).map fun (text, rest) => (String.ofList text, rest)
  | '\'' :: s => (readLiteral? s).map fun (text, rest) => (String.ofList text, rest)
  | s =>
    let part := s.takeWhile isBareKeyChar
    if part.isEmpty then none else some (String.ofList part, s.dropWhile isBareKeyChar)

/-- The parts of a key, at most `count` of them, with points between and blanks around. -/
def readKeyParts? : Nat → List Char → Option (List String × List Char)
  | 0, _ => none
  | count + 1, s => do
    let (part, rest) ← readKeyPart? (skipSpaces s)
    match skipSpaces rest with
    | '.' :: rest => do
      let (parts, rest) ← readKeyParts? count rest
      return (part :: parts, rest)
    | rest => return ([part], rest)

def readKey? (s : List Char) : Option (List String × List Char) := readKeyParts? nestingLimit s

/-- Blanks, line ends and comments between the items of an array. -/
def skipGaps : Nat → List Char → List Char
  | 0, s => s
  | n + 1, s =>
    match skipBlankLines s with
    | '#' :: rest => skipGaps n (rest.dropWhile isPlain)
    | rest => rest

/-- The items of an array up to its end. A comma may follow the last one. -/
def readItems? (item : List Char → Option (Toml × List Char)) :
    Nat → List Char → Option (List Toml × List Char)
  | 0, _ => none
  | n + 1, s =>
    match skipGaps s.length s with
    | ']' :: rest => some ([], rest)
    | s => do
      let (v, rest) ← item s
      match skipGaps rest.length rest with
      | ',' :: rest => do
        let (items, rest) ← readItems? item n rest
        return (v :: items, rest)
      | ']' :: rest => return ([v], rest)
      | _ => none

/-- The pairs of an inline table up to its end, added to those before. -/
def readPairs? (item : List Char → Option (Toml × List Char)) :
    Nat → Table → List Char → Option (Table × List Char)
  | 0, _, _ => none
  | n + 1, t, s => do
    let (key, rest) ← readKey? s
    let rest ← dropMark? '=' rest
    let (v, rest) ← item (skipSpaces rest)
    let (way, last) ← splitKey? key
    let t ← addValue? v last way t
    match skipSpaces rest with
    | ',' :: rest => readPairs? item n t rest
    | '\x7d' :: rest => return (t, rest)
    | _ => none

def readInlineTable? (item : List Char → Option (Toml × List Char)) (s : List Char) :
    Option (Table × List Char) :=
  match skipSpaces s with
  | '\x7d' :: rest => some ([], rest)
  | s => readPairs? item s.length [] s

/-- A value with at most `depth` arrays and inline tables around its scalars. -/
def readValue? : Nat → List Char → Option (Toml × List Char)
  | 0, '[' :: _ => none
  | depth + 1, '[' :: s =>
    (readItems? (readValue? depth) (s.length + 1) s).map fun (items, rest) => (.array items, rest)
  | 0, '\x7b' :: _ => none
  | depth + 1, '\x7b' :: s =>
    (readInlineTable? (readValue? depth) s).map fun (t, rest) => (.table .inlined t, rest)
  | _, '"' :: s =>
    (readString? ('"' :: s)).map fun (text, rest) => (.string (String.ofList text), rest)
  | _, '\'' :: s =>
    (readString? ('\'' :: s)).map fun (text, rest) => (.string (String.ofList text), rest)
  | _, s => readScalar? s

/-- A document so far and the header of its current table. -/
structure Document where
  root : Table
  header : List String

namespace Document

def start : Document := ⟨[], []⟩

/-- Makes the table of a header the current one. -/
def openTable? (d : Document) (header : List String) (add : String → Table → Option Table) :
    Option Document := do
  let (way, last) ← splitKey? header
  return ⟨← atHeader? way (add last) d.root, header⟩

/-- Adds a value to the current table. -/
def add? (d : Document) (key : List String) (value : Toml) : Option Document := do
  let (way, last) ← splitKey? key
  return { d with root := ← atHeader? d.header (addValue? value last way) d.root }

end Document

/-- One statement at the start of a text that is not blank there, and the text after its line. -/
def readStatement? (d : Document) : List Char → Option (Document × List Char)
  | '[' :: '[' :: s => do
    let (header, rest) ← readKey? s
    let rest ← endLine? (← dropMark? ']' (← dropMark? ']' rest))
    return (← d.openTable? header addToArray?, rest)
  | '[' :: s => do
    let (header, rest) ← readKey? s
    let rest ← endLine? (← dropMark? ']' rest)
    return (← d.openTable? header define?, rest)
  | s => do
    let (key, rest) ← readKey? s
    let (value, rest) ← readValue? nestingLimit (skipSpaces (← dropMark? '=' rest))
    return (← d.add? key value, ← endLine? rest)

/-- All statements of a text; each takes at least one character of it. -/
def readStatements? : Nat → Document → List Char → Option Document
  | 0, _, _ => none
  | n + 1, d, s =>
    match skipGaps s.length s with
    | [] => some d
    | s => do
      let (d, rest) ← readStatement? d s
      readStatements? n d rest

/-- The table of a document, which may start with a byte order mark. -/
def read? (text : String) : Option Table :=
  let s := match text.toList with
    | '\uFEFF' :: rest => rest
    | s => s
  (readStatements? (s.length + 1) .start s).map Document.root

end TaggedMarkup.Toml
