/-!
# Markers of the tagged encoding

An element tells its kind, its list items, its variant case and its character data by entries with
fixed names. They are spelt here and nowhere else.
-/
namespace TaggedMarkup

/-- The kinds that the type attribute of an element can spell. -/
inductive Kind where
  | null
  | array
  | boolean
  | string
  deriving DecidableEq

def Kind.text : Kind → String
  | null => "null"
  | array => "array"
  | boolean => "boolean"
  | string => "string"

def Kind.read? (text : String) : Option Kind :=
  [Kind.null, .array, .boolean, .string].find? fun k => k.text == text

theorem Kind.read?_text (k : Kind) : Kind.read? k.text = some k := by cases k <;> rfl

/-- The message about a text that spells no kind. -/
def Kind.unknownMessage (text : String) : String := "unknown kind marker: " ++ text

namespace Marker

/-- The attribute that holds the kind of an element. -/
def kind : String := "@_type"

/-- The items of a list element. -/
def item : String := "_ITEM_"

/-- The character data of an element that has other entries. -/
def text : String := "#text"

/-- The case of a variant. -/
def variant : String := "_T_"

/-- Character data to be written without escapes. -/
def verbatim : String := "__cdata"

/-- The one element at the top of a document. -/
def root : String := "root"

/-- The field that keeps a case where no schema declares one. -/
def untypedCase : String := "xmlType"

/-- The key of an attribute in the entries of its element. -/
def attributeKey (name : String) : String := "@_" ++ name

/-- The attribute that a key stands for; other entries have none. -/
def attributeName? (key : String) : Option String :=
  match key.toList with
  | '@' :: '_' :: name => some (String.ofList name)
  | _ => none

/-- An entry for an attribute. -/
def isAttribute (key : String) : Bool := (attributeName? key).isSome

theorem attributeName?_attributeKey (name : String) :
    attributeName? (attributeKey name) = some name := by
  simp [attributeName?, attributeKey, String.toList_append]

end Marker

end TaggedMarkup
