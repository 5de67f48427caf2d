import TaggedMarkup.Entries
import TaggedMarkup.Number
import TaggedMarkup.Path
/-!
# Values

A value is a definition as the user edits it. References to fields of other artifacts are symbolic:
they name their target instead of a text that happens to spell it.
-/
namespace TaggedMarkup

/-- A symbolic reference to a field of an artifact. -/
structure Reference where
  target : Path
  deriving DecidableEq, Inhabited

def Reference.display (r : Reference) : String := "ref:" ++ r.target.display

inductive Value where
  | null
  | bool (value : Bool)
  | number (value : Number)
  | string (text : String)
  | list (items : List Value)
  | reference (reference : Reference)
  | object (fields : List (String × Value))
  deriving Inhabited

namespace Value

def kindName : Value → String
  | null => "null"
  | bool _ => "boolean"
  | number _ => "number"
  | string _ => "string"
  | list _ => "list"
  | reference _ => "reference"
  | object _ => "object"

/-- A value that a synthesized field holds when there is nothing to say. -/
def isPlaceholder : Value → Bool
  | null => true
  | list items => items.isEmpty
  | _ => false

def isEmptyContainer : Value → Bool
  | object fields => fields.isEmpty
  | list items => items.isEmpty
  | _ => false

def asObject? : Value → Option (Entries Value)
  | object fields => some fields
  | _ => none

def asList? : Value → Option (List Value)
  | list items => some items
  | _ => none

def asString? : Value → Option String
  | string t => some t
  | _ => none

def asReference? : Value → Option Reference
  | reference r => some r
  | _ => none

/-- The fields of an object; other values have none. -/
def fields (v : Value) : Entries Value := v.asObject?.getD []

def get? (v : Value) (key : String) : Option Value := Entries.get? v.fields key

/-- A list position: digits, with one plus sign allowed before them. -/
def readPosition? (segment : String) : Option Nat :=
  let digits := match segment.toList with
    | '+' :: rest => rest
    | rest => rest
  if digits ≠ [] ∧ digits.all Char.isDigit then some (Nat.ofDigitChars 10 digits 0) else none

/-- The field or item that one segment of a path leads to. -/
def step? (v : Value) (segment : String) : Option Value :=
  match v with
  | object fields => Entries.get? fields segment
  | list items => (readPosition? segment).bind fun i => items[i]?
  | _ => none

def getPath? (v : Value) (segments : List String) : Option Value :=
  segments.foldlM step? v

/-- The text of a truth value, number or string. -/
def scalarText? : Value → Option String
  | bool b => some (boolText b)
  | number n => some n.text
  | string t => some t
  | _ => none

mutual

/-- Equality up to the order of fields; numbers are compared by `Number.same`. -/
def same : Value → Value → Bool
  | null, null => true
  | bool a, bool b => a == b
  | number m, number n => m.same n
  | string s, string t => s == t
  | list xs, list ys => sameItems xs ys
  | reference r, reference q => r == q
  | object es, object fs => es.length == fs.length && sameFields es fs
  | _, _ => false

def sameItems : List Value → List Value → Bool
  | [], [] => true
  | x :: xs, y :: ys => same x y && sameItems xs ys
  | _, _ => false

/-- Every field on the left has an equal one on the right. -/
def sameFields : Entries Value → Entries Value → Bool
  | [], _ => true
  | (k, v) :: rest, fs =>
    (match Entries.get? fs k with
      | some w => same v w
      | none => false) && sameFields rest fs

end

theorem getPath?_cons (v : Value) (s : String) (rest : List String) :
    v.getPath? (s :: rest) = (v.step? s).bind fun w => w.getPath? rest := rfl

end Value

end TaggedMarkup
