import TaggedMarkup.Text.Alphanumeric
/-!
# Dotted paths

A path addresses an artifact, a field of one, or a position inside a value. Its text joins the
segments with points; `read` accepts a text exactly if every piece between points is a segment, and
reports the first piece that is none.
-/
namespace TaggedMarkup

/-- The empty path is the root. -/
structure Path where
  segments : List String
  deriving DecidableEq, Inhabited

inductive PathError where
  | emptySegment
  | invalidSegment (segment : String)
  deriving DecidableEq

def PathError.message : PathError → String
  | emptySegment => "path contains empty segment"
  | invalidSegment s =>
    "invalid segment: " ++ s ++ " (must be alphanumeric, underscore or hyphen)"

namespace Path

def root : Path := ⟨[]⟩

def child (p : Path) (segment : String) : Path := ⟨p.segments ++ [segment]⟩

def last? (p : Path) : Option String := p.segments.getLast?

/-- The segments joined with points; the root has the empty text. -/
def text (p : Path) : String :=
  String.ofList (List.intercalate ['.'] (p.segments.map String.toList))

/-- The text shown in messages, where the root has a name. -/
def display (p : Path) : String := if p.segments.isEmpty then "<root>" else p.text

def isSegmentChar (c : Char) : Bool := Text.isAlphanumeric c || c == '_' || c == '-'

def IsSegment (s : String) : Prop := s ≠ "" ∧ s.toList.all isSegmentChar = true

def checkSegment (piece : List Char) : Except PathError String :=
  if piece.isEmpty then .error .emptySegment
  else if piece.all isSegmentChar then .ok (String.ofList piece)
  else .error (.invalidSegment (String.ofList piece))

def checkSegments : List (List Char) → Except PathError (List String)
  | [] => .ok []
  | piece :: rest => do
    let segment ← checkSegment piece
    let segments ← checkSegments rest
    return segment :: segments

def read (text : String) : Except PathError Path :=
  if text.isEmpty then .ok root
  else (checkSegments (text.toList.splitOn '.')).map Path.mk

/-- Segment by segment, each in the order of its code points. -/
def precedes (p q : Path) : Bool := (compare p.segments q.segments).isLE

@[simp] theorem child_segments (p : Path) (s : String) :
    (p.child s).segments = p.segments ++ [s] := rfl

theorem read_empty : read "" = .ok root := rfl

end Path

end TaggedMarkup
