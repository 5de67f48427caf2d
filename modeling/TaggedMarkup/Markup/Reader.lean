import TaggedMarkup.Markup.Token
import TaggedMarkup.Tree
/-!
# Reading markup as a tagged tree

Tokens are handled one at a time, so the first problem in document order is the one reported. An
element that holds nothing but text is that text; attributes and children are entries, and repeated
children of one name are collected where the first one stands.
-/
namespace TaggedMarkup.Markup

/-- Why a text is no document. -/
inductive Fault where
  /-- A token cannot be read or a closing tag does not fit. -/
  | illFormed
  | textOutside
  | verbatimOutside
  | unclosed (name : String)
  | noElement
  | tooDeep (limit : Nat)
  deriving DecidableEq

def Fault.message : Fault → String
  | illFormed => "malformed document: not well-formed"
  | textOutside => "malformed document: text outside of any element"
  | verbatimOutside => "malformed document: CDATA outside of any element"
  | unclosed name => "malformed document: unclosed element <" ++ name ++ ">"
  | noElement => "malformed document: document has no element"
  | tooDeep limit => "elements nest deeper than " ++ toString limit ++ " levels"

/-- An element that is still open. -/
structure Frame where
  name : String
  entries : Entries Tree
  text : String

namespace Frame

/-- The frame of an opening tag; attributes come first among its entries. -/
def ofTag (name : String) (attributes : Entries String) : Frame :=
  ⟨name, Entries.ofPairs (attributes.map fun a => (Marker.attributeKey a.1, Tree.text a.2)), ""⟩

/-- The element itself: text alone, or entries with any text among them. -/
def close (f : Frame) : Tree :=
  if f.entries.isEmpty then .text f.text
  else if f.text.isEmpty then .map f.entries
  else .map (Entries.insert f.entries Marker.text (.text f.text))

end Frame

/-- Adds a child; the second of a name turns the entry into a list. -/
def appendChild (entries : Entries Tree) (name : String) (child : Tree) : Entries Tree :=
  match Entries.get? entries name with
  | none => Entries.insert entries name child
  | some (.list items) => Entries.insert entries name (.list (items ++ [child]))
  | some first => Entries.insert entries name (.list [first, child])

/-- Open elements, the innermost first, and the finished ones at the top. -/
structure Reader where
  stack : List Frame
  top : Entries Tree

namespace Reader

def start : Reader := ⟨[], []⟩

/-- Puts a finished element into the innermost open one. -/
def place (top : Entries Tree) (name : String) (element : Tree) : List Frame → Reader
  | [] => ⟨[], appendChild top name element⟩
  | f :: stack => ⟨{ f with entries := appendChild f.entries name element } :: stack, top⟩

/-- The frame of a tag within the depth limit, which is checked before the attributes. -/
def openTag (limit : Nat) (r : Reader) (name : String) (attributes : Attributes) :
    Except Fault Frame :=
  if limit ≤ r.stack.length then .error (.tooDeep limit)
  else match attributes with
    | some attributes => .ok (Frame.ofTag name attributes)
    | none => .error .illFormed

def appendText (r : Reader) (outside : Fault) (text : Option String) : Except Fault Reader :=
  match r.stack, text with
  | [], _ => .error outside
  | _ :: _, none => .error .illFormed
  | f :: stack, some text => .ok { r with stack := { f with text := f.text ++ text } :: stack }

def step (limit : Nat) (r : Reader) : Token → Except Fault Reader
  | .opening name attributes => do
    let f ← openTag limit r name attributes
    return { r with stack := f :: r.stack }
  | .selfClosing name attributes => do
    let f ← openTag limit r name attributes
    return place r.top f.name f.close r.stack
  | .closing name =>
    match r.stack with
    | f :: stack =>
      if f.name = name then .ok (place r.top f.name f.close stack) else .error .illFormed
    | [] => .error .illFormed
  | .characters text => r.appendText .textOutside text
  | .verbatim text => r.appendText .verbatimOutside (some text)
  | .skipped => .ok r
  | .malformed => .error .illFormed

/-- The finished document; nothing is open any more and there is an element. -/
def finish (r : Reader) : Except Fault Tree :=
  match r.stack with
  | f :: _ => .error (.unclosed f.name)
  | [] => if r.top.isEmpty then .error .noElement else .ok (.map r.top)

end Reader

/-- The top-level elements of a document, nested at most `limit` deep. -/
def read (limit : Nat) (text : String) : Except Fault Tree := do
  (← (Token.ofDocument text).foldlM (Reader.step limit) Reader.start).finish

end TaggedMarkup.Markup
