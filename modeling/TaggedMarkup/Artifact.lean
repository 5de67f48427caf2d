import TaggedMarkup.Value.Json
/-!
# Artifacts

An artifact is a unit of configuration with an address, a kind and a value.
-/
namespace TaggedMarkup

structure Artifact where
  id : Path
  kind : String
  value : Value
  deriving Inhabited

namespace Artifact

/-- The fields of the value, none if it is no object. -/
def fields (a : Artifact) : Entries Value := a.value.fields

def field? (a : Artifact) (name : String) : Option Value := a.value.get? name

def withValue (a : Artifact) (value : Value) : Artifact := { a with value := value }

def toJson (a : Artifact) : Json :=
  .object [("id", .string a.id.text), ("kind", .string a.kind), ("value", a.value.toJson)]

def jsonText (a : Artifact) : String := a.toJson.text

def ofParts? : Json → Json → Json → Option Artifact
  | .string id, .string kind, value => do
    return ⟨← (Path.read id).toOption, kind, ← Value.ofJson? true value⟩
  | _, _, _ => none

/-- The one member of a name; a missing or doubled one is an error. -/
def member? (members : List (String × Json)) (name : String) : Option Json :=
  match members.filter fun m => m.1 = name with
  | [(_, j)] => some j
  | _ => none

/-- An object with the three members among others, or an array of the three. -/
def ofJson? (j : Json) : Option Artifact := do
  let (id, kind, value) ← match j with
    | .object members =>
      some (← member? members "id", ← member? members "kind", ← member? members "value")
    | .array [id, kind, value] => some (id, kind, value)
    | _ => none
  if value.depth < Value.maxJsonDepth then ofParts? id kind value else none

def readJson? (text : String) : Option Artifact := (Json.read? text).bind ofJson?

end Artifact

end TaggedMarkup
