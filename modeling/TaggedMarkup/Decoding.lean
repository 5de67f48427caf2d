import TaggedMarkup.Reference.Resolution
import TaggedMarkup.Schema
import TaggedMarkup.Tree
/-!
# Values of tagged trees

Decoding follows the markers of a tree and takes the schema as advice: it picks scalar types and
interprets cases by it, and never fails where a tree disagrees. Only plain text can be a reference;
`candidates` lists the texts that have the shape of one.
-/
namespace TaggedMarkup

namespace Tree

/-- The kind that an element spells; an unknown spelling marks nothing. -/
def kind? (t : Tree) : Option Kind := t.kindMarker?.bind Kind.read?

mutual

/-- The references spelt in texts that decoding may resolve, in document order. Attributes, case
markers and text of an explicit kind never are references. -/
def candidates (c : Convention) : Tree → List EntryPath
  | text t => (c.parse? t).toList
  | list items => candidatesOfItems c items
  | map entries =>
    match kind? (map entries) with
    | some .array => candidatesOfItem c entries
    | some _ => []
    | none => candidatesOfEntries c entries

def candidatesOfItems (c : Convention) : List Tree → List EntryPath
  | [] => []
  | t :: rest => candidates c t ++ candidatesOfItems c rest

/-- Those in the items of a list element. -/
def candidatesOfItem (c : Convention) : List (String × Tree) → List EntryPath
  | [] => []
  | (key, t) :: rest => if key = Marker.item then candidates c t else candidatesOfItem c rest

def candidatesOfEntries (c : Convention) : List (String × Tree) → List EntryPath
  | [] => []
  | (key, t) :: rest =>
    (if key = Marker.variant ∨ Marker.isAttribute key then [] else candidates c t) ++
      candidatesOfEntries c rest

end

end Tree

/-- What decoding knows beside the tree. -/
structure Decoder where
  registry : Registry
  convention : Convention
  resolutions : Resolutions
  /-- Empty objects and lists stay where they would be dropped. -/
  keepEmpty : Bool := false

namespace Decoder

/-- The schema of items if the hint is a list. -/
def itemHint (d : Decoder) (hint : Option Schema) : Option Schema :=
  match hint.map d.registry.resolve with
  | some (.list item) => some item
  | _ => none

/-- The object type behind a hint; an inline variant stands for its only case. -/
def objectHint (d : Decoder) (hint : Option Schema) : Option ObjectType :=
  match hint.map d.registry.resolve with
  | some (.object o) => some o
  | some (.variant v) =>
    if v.isInline then v.soleCase?.bind fun c => d.registry.objectOf? c.2 else none
  | _ => none

/-- The number or truth value that a text spells, else the text. -/
def natural (text : String) : Value :=
  match Number.canonical? text, canonicalBool? text with
  | some n, _ => .number n
  | none, some b => .bool b
  | none, none => .string text

def number (text : String) : Value :=
  ((Number.canonical? text).map Value.number).getD (.string text)

def bool (text : String) : Value := ((canonicalBool? text).map Value.bool).getD (.string text)

/-- The reference that a text spells, if it resolved. -/
def reference? (d : Decoder) (text : String) : Option Reference :=
  (d.convention.parse? text).bind d.resolutions.get?

/-- A text that is no reference. Where a structure is expected an empty text holds nothing. -/
def literal (d : Decoder) (text : String) (hint : Option Schema) : Value :=
  match hint.map d.registry.resolve with
  | some (.primitive .string) => .string text
  | some (.primitive .number) => number text
  | some (.primitive .boolean) => bool text
  | some (.object _) | some (.variant _) => if text.isEmpty then .object [] else natural text
  | some (.list _) => if text.isEmpty then .list [] else natural text
  | _ => natural text

def scalar (d : Decoder) (text : String) (hint : Option Schema) : Value :=
  match d.reference? text with
  | some r => .reference r
  | none => d.literal text hint

def keeps (d : Decoder) (v : Value) : Bool := d.keepEmpty || !v.isEmptyContainer

/-- The text of an element of an explicit kind. -/
def kindText (entries : Entries Tree) : String :=
  ((Entries.get? entries Marker.text).bind Tree.asText?).getD ""

/-- An object whose case no schema declares keeps it in a field of its own. -/
def untyped (case : String) (fields : Entries Value) : Value :=
  .object (Entries.extend [(Marker.untypedCase, .string case)] fields)

mutual

def decode (d : Decoder) : Tree → Option Schema → Value
  | .text t, hint => d.scalar t hint
  | .list items, hint => .list (decodeItems d items ((d.itemHint hint).or hint))
  | .map entries, hint =>
    match Tree.kind? (.map entries), Tree.variantMarker? (.map entries) with
    | some .null, _ => .object []
    | some .array, _ => .list (decodeItem d entries (d.itemHint hint))
    | some .boolean, _ => bool (kindText entries)
    | some .string, _ => .string (kindText entries)
    | none, none => .object (decodeFields d false entries (d.objectHint hint))
    | none, some case =>
      match hint.map d.registry.resolve with
      | some (.object o) =>
        if o.tag = some case then .object (decodeFields d true entries (some o))
        else untyped case (decodeFields d true entries (some o))
      | some (.variant v) =>
        match v.case? case with
        | some schema =>
          let payload := Value.object (decodeFields d true entries (d.registry.objectOf? schema))
          if v.isInline then payload else .object [(case, payload)]
        | none => .object [(case, .object (decodeFields d true entries none))]
      | _ => untyped case (decodeFields d true entries none)

def decodeItems (d : Decoder) : List Tree → Option Schema → List Value
  | [], _ => []
  | t :: rest, hint =>
    let v := decode d t hint
    if d.keeps v then v :: decodeItems d rest hint else decodeItems d rest hint

/-- The items of a list element; a single item need not be in a list. -/
def decodeItem (d : Decoder) : List (String × Tree) → Option Schema → List Value
  | [], _ => []
  | (key, t) :: rest, hint =>
    if key = Marker.item then
      match t with
      | .list items => decodeItems d items hint
      | t =>
        let v := decode d t hint
        if d.keeps v then [v] else []
    else decodeItem d rest hint

/-- The fields of an object, without the case marker where that has been taken. -/
def decodeFields (d : Decoder) (skipCase : Bool) :
    List (String × Tree) → Option ObjectType → Entries Value
  | [], _ => []
  | (key, t) :: rest, o =>
    if skipCase ∧ key = Marker.variant then decodeFields d skipCase rest o
    else
      let v := if Marker.isAttribute key then Value.string (t.asText?.getD "")
        else decode d t ((o.bind fun o => o.field? key).map Field.schema)
      if d.keeps v then (key, v) :: decodeFields d skipCase rest o
      else decodeFields d skipCase rest o

end

/-- The content of the root element, always an object; a text alone is kept as its text field. -/
def decodeDocument (d : Decoder) (root : Tree) (schema : Schema) : Value :=
  match d.decode root (some schema) with
  | .object fields => .object fields
  | .string "" => .object []
  | v => .object [(Marker.text, v)]

end Decoder

end TaggedMarkup
