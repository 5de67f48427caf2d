import TaggedMarkup.ElementName
import TaggedMarkup.Reference.Convention
import TaggedMarkup.Schema.Defaults
import TaggedMarkup.Text.Blank
import TaggedMarkup.Text.Quoted
import TaggedMarkup.Tree
/-!
# Tagged trees of values

Encoding is strict: a value must fit its schema. An object is written with the fields it has, then
with those it leaves out, and one that has nothing to say collapses to a null marker. A field that
is filled in is encoded in its turn, so a default can lead to further defaults; a chain of them
longer than the number of fields in the registry would go on for ever and is refused.
-/
namespace TaggedMarkup

/-- What a schema asks for, as messages name it. -/
inductive Expected where
  | primitive (kind : Primitive)
  | list
  | object (name : String)
  | variant (name : String)
  deriving DecidableEq

def Expected.text : Expected → String
  | primitive .string => "string"
  | primitive .number => "number"
  | primitive .boolean => "boolean"
  | primitive .unknown => "any value"
  | list => "list"
  | object name => "object " ++ name
  | variant name => "variant " ++ name

def Resolved.expected : Resolved → Expected
  | primitive kind => .primitive kind
  | list _ => .list
  | object o => .object o.name
  | variant v => .variant v.name

/-- How a value fails to fit; `found` is the name of a kind of value. -/
inductive Mismatch where
  | conflict (expected : Expected) (found : String)
  | attributeNotScalar (name found : String)
  | attributeSpellsKind (name text : String)
  | textNotScalar (found : String)
  | reserved (key : String)
  | badName (key : String)
  | payloadNotObject (found : String)
  | unknownCase (case : String) (cases : List String)
  | notSingleCase (variant : String) (cases : List String) (count : Nat)
  deriving DecidableEq

def Mismatch.text : Mismatch → String
  | conflict expected found => "expected " ++ expected.text ++ ", found " ++ found
  | attributeNotScalar name found =>
    "attribute " ++ name ++ " must be a scalar, found " ++ found
  | attributeSpellsKind name text =>
    "attribute " ++ name ++ "=" ++ Text.quoted text ++ " would read back as a kind marker"
  | textNotScalar found => "element text must be a scalar, found " ++ found
  | reserved key => key ++ " is a reserved marker, not a field name"
  | badName key => Text.quoted key ++ " is not a valid element name"
  | payloadNotObject found => "variant payload must be an object, found " ++ found
  | unknownCase case cases =>
    "unknown case " ++ case ++ " (expected one of " ++ String.intercalate ", " cases ++ ")"
  | notSingleCase variant cases count =>
    "expected a single case of " ++ variant ++ " (one of " ++ String.intercalate ", " cases ++
      "), found " ++ toString count ++ " fields"

inductive EncodeError where
  | mismatch (path : Path) (reason : Mismatch)
  | unknownKind (kind : String)
  /-- Defaults lead to further defaults without end. -/
  | endlessDefault
  deriving DecidableEq

def EncodeError.message : EncodeError → String
  | mismatch path reason => "schema mismatch at " ++ path.display ++ ": " ++ reason.text
  | unknownKind kind => "no schema registered for artifact kind: " ++ kind
  | endlessDefault => "defaults lead to further defaults without end"

/-- Encoding under a registry, where `fill` encodes the default of a field at a path. -/
structure Encoder where
  registry : Registry
  convention : Convention
  fill : Field → Path → Except EncodeError Tree

namespace Encoder

def mismatch {α : Type} (path : Path) (reason : Mismatch) : Except EncodeError α :=
  .error (.mismatch path reason)

def conflict {α : Type} (path : Path) (expected : Resolved) (found : Value) :
    Except EncodeError α := mismatch path (.conflict expected.expected found.kindName)

/-- Plain text, unless it would be trimmed, or read as a number or truth value. -/
def stringTree (text : String) (verbatim : Bool) : Tree :=
  if verbatim || Text.isPadded text then .verbatim text
  else if (Number.canonical? text).isSome || (canonicalBool? text).isSome then .typed .string text
  else .text text

/-- The text of a scalar or reference. -/
def wireText? (e : Encoder) : Value → Option String
  | .reference r => some (e.convention.render r)
  | v => v.scalarText?

/-- A scalar fits anywhere but under a type with parts. -/
def expectScalar (resolved : Option Resolved) (v : Value) (path : Path) : Except EncodeError Unit :=
  match resolved with
  | some (.object o) => conflict path (.object o) v
  | some (.variant t) => conflict path (.variant t) v
  | some (.list item) => conflict path (.list item) v
  | _ => .ok ()

/-- The schema of items where a list stands. -/
def expectList (resolved : Option Resolved) (v : Value) (path : Path) :
    Except EncodeError (Option Schema) :=
  match resolved with
  | none | some (.primitive .unknown) => .ok none
  | some (.list item) => .ok (some item)
  | some other => conflict path other v

def attributeEntry (e : Encoder) (key name : String) (v : Value) (path : Path) :
    Except EncodeError (String × Tree) :=
  match e.wireText? v with
  | none => mismatch path (.attributeNotScalar name v.kindName)
  | some text =>
    if key = Marker.kind ∧ (Kind.read? text).isSome then
      mismatch path (.attributeSpellsKind name text)
    else .ok (key, .text text)

/-- The text of an element; padding survives only verbatim. -/
def textEntry (e : Encoder) (v : Value) (path : Path) : Except EncodeError (String × Tree) :=
  match e.wireText? v with
  | none => mismatch path (.textNotScalar v.kindName)
  | some text =>
    .ok (if Text.isPadded text then Marker.verbatim else Marker.text, .text text)

/-- Keys that are markers and can be no field. -/
def isReserved (key : String) : Bool :=
  key == Marker.verbatim || key == Marker.item || key == Marker.variant

/-- The fields that an object leaves out, filled in unless they are optional. -/
def missingEntries (e : Encoder) (present : List String) (path : Path) :
    List (String × Field) → Except EncodeError (Entries Tree)
  | [] => .ok []
  | (name, f) :: rest =>
    if name ∈ present ∨ f.optional then missingEntries e present path rest
    else do
      let t ← e.fill f (path.child name)
      return (name, t) :: (← missingEntries e present path rest)

/-- Entries in the order of the value, then those filled in. -/
def withMissing (e : Encoder) (entries : Entries Tree) (fields : Entries Value)
    (o : Option ObjectType) (path : Path) : Except EncodeError (Entries Tree) := do
  match o with
  | none => return entries
  | some o => return Entries.extend entries (← e.missingEntries fields.keys path o.fields)

/-- The case that an object keeps in a field because its type declares neither case nor field. -/
def untypedCase? (fields : Entries Value) (o : Option ObjectType) : Option String :=
  if o.any fun o => o.tag.isSome || (o.field? Marker.untypedCase).isSome then none
  else (fields.get? Marker.untypedCase).bind Value.asString?

/-- An object with its case first or its tag last; without either it may collapse. -/
def finishObject (case : Option String) (o : Option ObjectType) (collapse : Bool)
    (entries : Entries Tree) : Tree :=
  match case, o.bind ObjectType.tag with
  | some case, _ => .map (Entries.extend [(Marker.variant, .text case)] entries)
  | none, some tag => .map (Entries.insert entries Marker.variant (.text tag))
  | none, none =>
    if collapse ∧ entries.all fun t => t.2.isPlaceholder then .null else .map entries

/-- The payload of a case; it never collapses. -/
def finishCase (case : String) (entries : Entries Tree) : Tree :=
  .map (Entries.extend [(Marker.variant, .text case)] entries)

/-- The explicit case of a variant value: its only field, if that names a case. -/
def explicitCase? (v : VariantType) (fields : Entries Value) : Option (String × Schema) :=
  match v.isInline, fields with
  | false, [(case, _)] => (v.case? case).map fun schema => (case, schema)
  | _, _ => none

/-- The case that needs no name: the only one of a variant. -/
def impliedCase (v : VariantType) (fields : Entries Value) (path : Path) :
    Except EncodeError (String × Schema) :=
  match v.soleCase?, fields with
  | some c, _ => .ok c
  | none, [(case, _)] => mismatch path (.unknownCase case v.cases.keys)
  | none, fields => mismatch path (.notSingleCase v.name v.cases.keys fields.length)

mutual

/-- The tree of a value at a path under an optional schema. -/
def encode (e : Encoder) : Value → Option Schema → Bool → Path → Except EncodeError Tree
  | .reference r, _, _, _ => .ok (.text (e.convention.render r))
  | .null, _, _, _ => .ok .null
  | .bool b, schema, _, path => do
    expectScalar (schema.map e.registry.resolve) (.bool b) path
    return .typed .boolean (boolText b)
  | .number n, schema, _, path => do
    expectScalar (schema.map e.registry.resolve) (.number n) path
    return .text n.text
  | .string t, schema, verbatim, path => do
    expectScalar (schema.map e.registry.resolve) (.string t) path
    return stringTree t verbatim
  | .list items, schema, _, path => do
    let item ← expectList (schema.map e.registry.resolve) (.list items) path
    return .array (← encodeItems e items item path 0)
  | .object fields, schema, _, path =>
    match schema.map e.registry.resolve with
    | none | some (.primitive .unknown) => do
      let case := untypedCase? fields none
      return finishObject case none true (← encodeFields e case.isSome fields none path)
    | some (.object o) => do
      let case := untypedCase? fields (some o)
      let present ← encodeFields e case.isSome fields (some o) path
      return finishObject case (some o) true (← e.withMissing present fields (some o) path)
    | some (.variant v) =>
      if fields.isEmpty then .ok .null
      else match explicitCase? v fields with
        | some (case, schema) => do
          return finishCase case (← encodePayload e fields (e.registry.objectOf? schema) path)
        | none => do
          let (case, schema) ← impliedCase v fields path
          let o := e.registry.objectOf? schema
          let present ← encodeFields e false fields o path
          return finishCase case (← e.withMissing present fields o path)
    | some other =>
      if fields.isEmpty then .ok .null else conflict path other (.object fields)

def encodeItems (e : Encoder) :
    List Value → Option Schema → Path → Nat → Except EncodeError (List Tree)
  | [], _, _, _ => .ok []
  | v :: rest, item, path, i => do
    let t ← encode e v item false (path.child (toString i))
    return t :: (← encodeItems e rest item path (i + 1))

/-- The entries of the fields that are there, without the one that keeps an untyped case. -/
def encodeFields (e : Encoder) (skipCase : Bool) :
    List (String × Value) → Option ObjectType → Path → Except EncodeError (Entries Tree)
  | [], _, _ => .ok []
  | (key, v) :: rest, o, path =>
    if skipCase ∧ key = Marker.untypedCase then encodeFields e skipCase rest o path
    else do
      let entry ← match Marker.attributeName? key with
        | some name => e.attributeEntry key name v path
        | none =>
          if key = Marker.text then e.textEntry v path
          else if isReserved key then mismatch path (.reserved key)
          else if !isElementName key then mismatch path (.badName key)
          else
            let f := o.bind fun o => o.field? key
            (encode e v (f.map Field.schema) (f.any Field.verbatim) (path.child key)).map (key, ·)
      return entry :: (← encodeFields e skipCase rest o path)

/-- The entries of the payload of an explicit case, which is an object or null. -/
def encodePayload (e : Encoder) :
    List (String × Value) → Option ObjectType → Path → Except EncodeError (Entries Tree)
  | (case, .object payload) :: _, o, path => do
    let present ← encodeFields e false payload o (path.child case)
    e.withMissing present payload o (path.child case)
  | (case, .null) :: _, o, path => e.withMissing [] [] o (path.child case)
  | (case, v) :: _, _, path => mismatch (path.child case) (.payloadNotObject v.kindName)
  | [], _, _ => .ok []

end

/-- The tree of a field that is filled in, where at most `chain` defaults lead to each other. -/
def fillField (registry : Registry) (convention : Convention) :
    Nat → Field → Path → Except EncodeError Tree
  | 0, _, _ => .error .endlessDefault
  | chain + 1, f, path =>
    encode ⟨registry, convention, fillField registry convention chain⟩
      (registry.synthesizeField f) (some f.schema) f.verbatim path

/-- The number of fields of all object types. -/
def fieldCount (registry : Registry) : Nat :=
  registry.types.foldl (fun n t => match t with
    | .object o => n + o.fields.length
    | .variant _ => n) 0

def ofRegistry (registry : Registry) (convention : Convention) : Encoder :=
  ⟨registry, convention, fillField registry convention (fieldCount registry)⟩

/-- The content of the root element, which never collapses. -/
def encodeRoot (e : Encoder) (v : Value) (schema : Schema) : Except EncodeError Tree :=
  let body := fun (o : Option ObjectType) => do
    let case := untypedCase? v.fields o
    let present ← e.encodeFields case.isSome v.fields o .root
    return finishObject case o false (← e.withMissing present v.fields o .root)
  match v, e.registry.resolve schema with
  | .object _, .object o | .null, .object o => body (some o)
  | .object _, .primitive .unknown | .null, .primitive .unknown => body none
  | _, _ => e.encode v (some schema) false .root

/-- A whole definition under the root element. -/
def encodeDocument (e : Encoder) (v : Value) (schema : Schema) : Except EncodeError Tree := do
  return .map [(Marker.root, ← e.encodeRoot v schema)]

end Encoder

end TaggedMarkup
