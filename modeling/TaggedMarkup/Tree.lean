import TaggedMarkup.Entries
import TaggedMarkup.Marker
/-!
# Tagged trees

A tree is what markup says before a schema interprets it: an element is its text, or its entries if
it has attributes or children, and repeated children are one list. Markers are ordinary entries.
-/
namespace TaggedMarkup

inductive Tree where
  | text (text : String)
  | map (entries : List (String × Tree))
  | list (items : List Tree)
  deriving Inhabited

namespace Tree

def asText? : Tree → Option String
  | text t => some t
  | _ => none

def asEntries? : Tree → Option (Entries Tree)
  | map es => some es
  | _ => none

def null : Tree := map [(Marker.kind, text Kind.null.text)]

/-- A list wrapper; without items it has no entry for them. -/
def array (items : List Tree) : Tree :=
  if items.isEmpty then map [(Marker.kind, text Kind.array.text)]
  else map [(Marker.kind, text Kind.array.text), (Marker.item, list items)]

/-- Text under an explicit kind. -/
def typed (kind : Kind) (t : String) : Tree :=
  map [(Marker.kind, text kind.text), (Marker.text, text t)]

def verbatim (t : String) : Tree := map [(Marker.verbatim, text t)]

/-- The text of a marker entry; an entry that is no text marks nothing. -/
def marker? (t : Tree) (key : String) : Option String :=
  t.asEntries?.bind fun es => (Entries.get? es key).bind asText?

def kindMarker? (t : Tree) : Option String := t.marker? Marker.kind

def variantMarker? (t : Tree) : Option String := t.marker? Marker.variant

/-- A bare null or list marker, which says nothing beyond the kind. -/
def isPlaceholder (t : Tree) : Bool :=
  (t.asEntries?.any fun es => es.length == 1) &&
    t.kindMarker?.any fun k => k == Kind.null.text || k == Kind.array.text

mutual

/-- Equality up to the order of entries. -/
def same : Tree → Tree → Bool
  | text a, text b => a == b
  | map es, map fs => es.length == fs.length && sameEntries es fs
  | list xs, list ys => sameItems xs ys
  | _, _ => false

/-- Every entry on the left has an equal one on the right. -/
def sameEntries : Entries Tree → Entries Tree → Bool
  | [], _ => true
  | (k, t) :: rest, fs =>
    (match Entries.get? fs k with
      | some u => same t u
      | none => false) && sameEntries rest fs

def sameItems : List Tree → List Tree → Bool
  | [], [] => true
  | x :: xs, y :: ys => same x y && sameItems xs ys
  | _, _ => false

end

theorem isPlaceholder_array (items : List Tree) :
    (array items).isPlaceholder = items.isEmpty := by
  cases items <;> rfl

end Tree

end TaggedMarkup
