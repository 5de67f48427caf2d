import TaggedMarkup.Markup.Escape
import TaggedMarkup.Tree
/-!
# Writing tagged trees

Attributes, text and verbatim text are written into the tags of their element, a list is a run of
elements, and an empty element keeps both tags. The layout adds only blanks that reading drops. An
element is written before a given text, which `writeElement_append` shows to be left as it is.
-/
namespace TaggedMarkup

/-- One element a line with indented children, or everything on one line. -/
structure Layout where
  pretty : Bool
  /-- Spaces for each level of nesting. -/
  indent : Nat
  deriving DecidableEq

namespace Layout

def margin (layout : Layout) (depth : Nat) : List Char :=
  if layout.pretty then List.replicate (layout.indent * depth) ' ' else []

def lineEnd (layout : Layout) : List Char := if layout.pretty then ['\n'] else []

end Layout

namespace Markup

/-- An entry that is written as a child element. -/
def isChild (key : String) : Bool :=
  !Marker.isAttribute key && key != Marker.text && key != Marker.verbatim

/-- The attributes among the entries; one that is no text cannot be written. -/
def writeAttributes (entries : Entries Tree) : List Char :=
  entries.flatMap fun (key, t) =>
    match Marker.attributeName? key, t.asText? with
    | some name, some v => ' ' :: name.toList ++ ['=', '"'] ++ escape v.toList ++ ['"']
    | _, _ => []

def verbatimStart : List Char := ['<', '!', '[', 'C', 'D', 'A', 'T', 'A', '[']

def verbatimEnd : List Char := [']', ']', '>']

/-- Text to be written without escapes; an end mark inside is split over two sections. -/
def splitEndMarks : List Char → List Char
  | ']' :: ']' :: '>' :: s =>
    ']' :: ']' :: (verbatimEnd ++ (verbatimStart ++ '>' :: splitEndMarks s))
  | c :: s => c :: splitEndMarks s
  | [] => []

def writeVerbatim (s : List Char) : List Char :=
  verbatimStart ++ (splitEndMarks s ++ verbatimEnd)

def entryText? (entries : Entries Tree) (key : String) : Option String :=
  (Entries.get? entries key).bind Tree.asText?

/-- The character data of an element, escaped text before verbatim text. -/
def writeContent (entries : Entries Tree) : List Char :=
  ((entryText? entries Marker.text).map fun t => escape t.toList).getD [] ++
    ((entryText? entries Marker.verbatim).map fun t => writeVerbatim t.toList).getD []

def hasContent (entries : Entries Tree) : Bool :=
  (entryText? entries Marker.text).isSome || (entryText? entries Marker.verbatim).isSome

def openTag (name : String) (attributes : List Char) : List Char :=
  '<' :: name.toList ++ attributes ++ ['>']

def closeTag (name : String) : List Char := '<' :: '/' :: name.toList ++ ['>']

mutual

/-- An element, before the text `rest` that follows it. -/
def writeElement (layout : Layout) (name : String) (depth : Nat) : Tree → List Char → List Char
  | .list items, rest => writeItems layout name depth items rest
  | .text t, rest =>
    layout.margin depth ++ (openTag name [] ++ (escape t.toList ++
      (closeTag name ++ (layout.lineEnd ++ rest))))
  | .map entries, rest =>
    let head := layout.margin depth ++ openTag name (writeAttributes entries)
    let tail := closeTag name ++ (layout.lineEnd ++ rest)
    if entries.any fun e => isChild e.1 then
      let content := if hasContent entries then
        layout.margin (depth + 1) ++ writeContent entries ++ layout.lineEnd else []
      head ++ (layout.lineEnd ++ (content ++
        writeChildren layout (depth + 1) entries (layout.margin depth ++ tail)))
    else head ++ (writeContent entries ++ tail)

/-- A list has no element of its own: each item is an element of the name. -/
def writeItems (layout : Layout) (name : String) (depth : Nat) : List Tree → List Char → List Char
  | [], rest => rest
  | t :: more, rest => writeElement layout name depth t (writeItems layout name depth more rest)

def writeChildren (layout : Layout) (depth : Nat) : Entries Tree → List Char → List Char
  | [], rest => rest
  | (key, t) :: more, rest =>
    if isChild key then writeElement layout key depth t (writeChildren layout depth more rest)
    else writeChildren layout depth more rest

end

mutual

/-- What follows an element stands after it unchanged. -/
theorem writeElement_append (layout : Layout) (name : String) (depth : Nat) (t : Tree)
    (rest more : List Char) :
    writeElement layout name depth t (rest ++ more) =
      writeElement layout name depth t rest ++ more := by
  match t with
  | .list items => exact writeItems_append layout name depth items rest more
  | .text t => simp [writeElement]
  | .map entries =>
    have h := writeChildren_append layout (depth + 1) entries
    by_cases hc : entries.any fun e => isChild e.1
    · simp only [writeElement, hc, if_true, ← List.append_assoc, h]
    · simp [writeElement, hc]

theorem writeItems_append (layout : Layout) (name : String) (depth : Nat) (items : List Tree)
    (rest more : List Char) :
    writeItems layout name depth items (rest ++ more) =
      writeItems layout name depth items rest ++ more := by
  match items with
  | [] => rfl
  | t :: items =>
    simp only [writeItems, writeItems_append layout name depth items,
      writeElement_append layout name depth t]

theorem writeChildren_append (layout : Layout) (depth : Nat) (entries : Entries Tree)
    (rest more : List Char) :
    writeChildren layout depth entries (rest ++ more) =
      writeChildren layout depth entries rest ++ more := by
  match entries with
  | [] => rfl
  | (key, t) :: entries =>
    by_cases hk : isChild key <;>
      simp only [writeChildren, hk, if_true, Bool.false_eq_true, if_false,
        writeChildren_append layout depth entries, writeElement_append layout key depth t]

end

/-- Every entry as an element, whatever its key. -/
def writeTop (layout : Layout) (entries : Entries Tree) : List Char :=
  entries.flatMap fun (name, t) => writeElement layout name 0 t []

mutual

def writeDocument (layout : Layout) : Tree → List Char
  | .map entries => writeTop layout entries
  | .list items => writeDocuments layout items
  | .text t => escape t.toList

def writeDocuments (layout : Layout) : List Tree → List Char
  | [] => []
  | t :: rest => writeDocument layout t ++ writeDocuments layout rest

end

/-- The text of a document given by its top-level elements. -/
def write (layout : Layout) (t : Tree) : String := String.ofList (writeDocument layout t)

end Markup

end TaggedMarkup
