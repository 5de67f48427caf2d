import TaggedMarkup.Decoding
import TaggedMarkup.Encoding
import TaggedMarkup.Markup.Reader
import TaggedMarkup.Markup.Writer
import TaggedMarkup.Schema.Analytics
import TaggedMarkup.Settings
/-!
# Reading and writing whole definitions

A profile is what reading and writing have in common: the schemas, the naming convention and the
settings. Reading looks up every candidate for a reference before it decodes, and reports those
that did not resolve.
-/
namespace TaggedMarkup

/-- Why a document is no definition. -/
inductive DecodeError where
  | unknownKind (kind : String)
  | tooLarge (size limit : Nat)
  | markup (fault : Markup.Fault)
  | severalRoots
  | severalElements
  | missingRoot (found : List String)
  deriving DecidableEq

def DecodeError.message : DecodeError → String
  | unknownKind kind => "no schema registered for artifact kind: " ++ kind
  | tooLarge size limit =>
    "document is " ++ toString size ++ " bytes, limit is " ++ toString limit
  | markup fault => fault.message
  | severalRoots => "malformed document: document has more than one <root> element"
  | severalElements => "malformed document: document has more than one top-level element"
  | missingRoot found =>
    "document has no <root> element (found: " ++ String.intercalate ", " found ++ ")"

/-- A decoded definition and the candidates kept as text. -/
structure Decoded where
  value : Value
  unresolved : List EntryPath

/-- Schemas, naming convention and settings. -/
structure Profile where
  registry : Registry := Analytics.registry
  convention : Convention := .standard
  settings : Settings := {}

namespace Profile

/-- The single root element at the top of a document. -/
def documentRoot (document : Tree) : Except DecodeError Tree :=
  match document.asEntries? with
  | none => .error (.markup .noElement)
  | some top =>
    match Entries.get? top Marker.root with
    | some (.list _) => .error .severalRoots
    | some root => if top.length = 1 then .ok root else .error .severalElements
    | none => .error (.missingRoot (Entries.keys top))

def layout (p : Profile) : Layout := ⟨p.settings.pretty, p.settings.indent⟩

def decoder (p : Profile) (resolutions : Resolutions) : Decoder :=
  ⟨p.registry, p.convention, resolutions, p.settings.keepEmpty⟩

def readMarkup (p : Profile) (text : String) : Except DecodeError Tree :=
  (Markup.read p.settings.maxDepth text).mapError .markup

/-- The definition of a kind that a text holds. -/
def decode (p : Profile) (store : Store) (kind text : String) : Except DecodeError Decoded := do
  match p.registry.schemaFor? kind with
  | none => .error (.unknownKind kind)
  | some schema =>
    if p.settings.maxDocumentBytes < text.utf8ByteSize then
      .error (.tooLarge text.utf8ByteSize p.settings.maxDocumentBytes)
    else
      let root ← documentRoot (← p.readMarkup text)
      let resolutions := p.convention.resolveAll store (root.candidates p.convention)
      return ⟨(p.decoder resolutions).decodeDocument root schema, resolutions.unresolved⟩

def encodeTree (p : Profile) (kind : String) (v : Value) : Except EncodeError Tree :=
  match p.registry.schemaFor? kind with
  | none => .error (.unknownKind kind)
  | some schema => (Encoder.ofRegistry p.registry p.convention).encodeDocument v schema

/-- The text of a definition of a kind. -/
def encode (p : Profile) (kind : String) (v : Value) : Except EncodeError String :=
  (p.encodeTree kind v).map (Markup.write p.layout)

end Profile

end TaggedMarkup
