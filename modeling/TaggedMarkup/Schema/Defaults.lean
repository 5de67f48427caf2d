import TaggedMarkup.Schema
/-!
# Default values

A field that a value leaves out takes its own default, else that of its schema. An object is filled
in field by field, and one that has nothing to say in any field collapses to null. The depth of
nested objects is bounded by the number of types; a checked registry never reaches the bound.
-/
namespace TaggedMarkup.Registry

/-- Null in place of an object made of placeholders. -/
def collapse (fields : Entries Value) : Value :=
  if fields.all fun f => f.2.isPlaceholder then .null else .object fields

/-- The default of a schema; `expand` fills in an object type that has no default of its own. -/
def defaultWith (r : Registry) (expand : ObjectType → Value) (schema : Schema) : Value :=
  match r.resolve schema with
  | .primitive _ => .null
  | .list _ => .list []
  | .object o => o.defaultValue.getD (expand o)
  | .variant v => v.defaultValue.getD .null

/-- The defaults of the fields to be filled in, in the order of the type. -/
def fieldsWith (r : Registry) (expand : ObjectType → Value) (o : ObjectType) : Entries Value :=
  (o.fields.filter fun f => !f.2.optional).map fun f =>
    (f.1, f.2.defaultValue.getD (r.defaultWith expand f.2.schema))

/-- The default of an object type made of its fields, at most `depth` objects deep. -/
def expand (r : Registry) : Nat → ObjectType → Value
  | 0, _ => .null
  | depth + 1, o => collapse (r.fieldsWith (expand r depth) o)

def synthesize (r : Registry) (schema : Schema) : Value :=
  r.defaultWith (r.expand r.types.length) schema

def synthesizeField (r : Registry) (f : Field) : Value :=
  f.defaultValue.getD (r.synthesize f.schema)

def synthesizeFields (r : Registry) (o : ObjectType) : Entries Value :=
  r.fieldsWith (r.expand r.types.length) o

end TaggedMarkup.Registry
