import TaggedMarkup.Json.Reader
import TaggedMarkup.Value
/-!
# The JSON form of values

A reference is an object whose only member `$ref` spells its target. Read with references, any
object of that shape becomes one; read plainly, it stays an object.
-/
namespace TaggedMarkup.Value

/-- The one member name of a reference. -/
def referenceName : String := "$ref"

mutual

def toJson : Value → Json
  | null => .null
  | bool b => .bool b
  | number n => .number n
  | string t => .string t
  | list items => .array (itemsToJson items)
  | reference r => .object [(referenceName, .string r.target.text)]
  | object fields => .object (fieldsToJson fields)

def itemsToJson : List Value → List Json
  | [] => []
  | v :: rest => toJson v :: itemsToJson rest

def fieldsToJson : List (String × Value) → List (String × Json)
  | [] => []
  | (k, v) :: rest => (k, toJson v) :: fieldsToJson rest

end

def jsonText (v : Value) : String := v.toJson.text

/-- The reference that the members of an object spell. A doubled member spells none. -/
def readReference? : List (String × Json) → Option Reference
  | [(name, .string target)] =>
    if name = referenceName then (Path.read target).toOption.map Reference.mk else none
  | _ => none

mutual

/-- The value of a JSON value, with or without references. A repeated member keeps its place and
takes the last value. -/
def ofJson? (references : Bool) : Json → Option Value
  | .null => some null
  | .bool b => some (bool b)
  | .number n => some (number n)
  | .string t => some (string t)
  | .array items => (itemsOfJson? references items).map list
  | .object members => do
    let fields ← fieldsOfJson? references members
    match if references then readReference? members else none with
    | some r => return reference r
    | none => return object (Entries.ofPairs fields)
  | .unreadable => none

def itemsOfJson? (references : Bool) : List Json → Option (List Value)
  | [] => some []
  | j :: rest => do return (← ofJson? references j) :: (← itemsOfJson? references rest)

def fieldsOfJson? (references : Bool) : List (String × Json) → Option (List (String × Value))
  | [] => some []
  | (k, j) :: rest => do
    return (k, ← ofJson? references j) :: (← fieldsOfJson? references rest)

end

/-- Texts that nest deeper are refused. -/
def maxJsonDepth : Nat := 127

def readJson? (references : Bool) (text : String) : Option Value := do
  let j ← Json.read? text
  if j.depth ≤ maxJsonDepth then ofJson? references j else none

end TaggedMarkup.Value
