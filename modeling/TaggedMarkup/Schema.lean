import TaggedMarkup.Value
/-!
# Schemas

A schema is a primitive, a list, or the name of an object or variant type in a registry. Names give
recursion, so types are finite terms.
-/
namespace TaggedMarkup

inductive Primitive where
  | string
  | number
  | boolean
  | unknown
  deriving DecidableEq

inductive Schema where
  | primitive (kind : Primitive)
  | list (item : Schema)
  | named (name : String)
  deriving DecidableEq

namespace Schema

def string : Schema := primitive .string

def number : Schema := primitive .number

def boolean : Schema := primitive .boolean

def unknown : Schema := primitive .unknown

/-- The type at the bottom of any list layers. -/
def typeName? : Schema → Option String
  | primitive _ => none
  | list item => item.typeName?
  | named name => some name

end Schema

/-- A field of an object type. -/
structure Field where
  schema : Schema
  /-- Text of the field is written without escapes. -/
  verbatim : Bool := false
  /-- The field is not filled in where a value leaves it out. -/
  optional : Bool := false
  defaultValue : Option Value := none

instance : Coe Schema Field := ⟨fun schema => { schema := schema }⟩

structure ObjectType where
  name : String
  fields : Entries Field := []
  /-- The case that is written into every element of the type. -/
  tag : Option String := none
  defaultValue : Option Value := none

namespace ObjectType

def field? (o : ObjectType) (name : String) : Option Field := Entries.get? o.fields name

end ObjectType

structure VariantType where
  name : String
  cases : Entries Schema := []
  /-- A value holds the payload itself, not an object around it named by the case. -/
  isInline : Bool := false
  defaultValue : Option Value := none

namespace VariantType

def case? (v : VariantType) (name : String) : Option Schema := Entries.get? v.cases name

/-- The one case of a variant that has no other. -/
def soleCase? (v : VariantType) : Option (String × Schema) :=
  match v.cases with
  | [c] => some c
  | _ => none

end VariantType

inductive TypeDef where
  | object (type : ObjectType)
  | variant (type : VariantType)

def TypeDef.name : TypeDef → String
  | object o => o.name
  | variant v => v.name

/-- What a schema stands for once its name is looked up. -/
inductive Resolved where
  | primitive (kind : Primitive)
  | list (item : Schema)
  | object (type : ObjectType)
  | variant (type : VariantType)

/-- Named types and the root schema of each kind of document, in the order of registration. -/
structure Registry where
  types : List TypeDef := []
  documents : Entries Schema := []

namespace Registry

def type? (r : Registry) (name : String) : Option TypeDef :=
  r.types.find? fun t => t.name = name

def objectType? (r : Registry) (name : String) : Option ObjectType :=
  match r.type? name with
  | some (.object o) => some o
  | _ => none

def schemaFor? (r : Registry) (kind : String) : Option Schema := Entries.get? r.documents kind

/-- A name without a type stands for an unknown scalar; a checked registry has none. -/
def resolve (r : Registry) : Schema → Resolved
  | .primitive kind => .primitive kind
  | .list item => .list item
  | .named name =>
    match r.type? name with
    | some (.object o) => .object o
    | some (.variant v) => .variant v
    | none => .primitive .unknown

/-- The object type that a schema names. -/
def objectOf? (r : Registry) (schema : Schema) : Option ObjectType :=
  match r.resolve schema with
  | .object o => some o
  | _ => none

end Registry

end TaggedMarkup
