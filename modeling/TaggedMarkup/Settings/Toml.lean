import TaggedMarkup.Settings
import TaggedMarkup.Toml.Reader
/-!
# Settings files

Each key of a settings file is optional and others are ignored; a known key must have a value of its
type, and sizes are not negative.
-/
namespace TaggedMarkup.Settings

/-- Why settings cannot be loaded. -/
inductive LoadFault where
  | unreadable
  | invalid
  deriving DecidableEq

def boolean? (t : Toml.Table) (key : String) (absent : Bool) : Option Bool :=
  match Entries.get? t key with
  | none => some absent
  | some (.boolean b) => some b
  | some _ => none

def size? (t : Toml.Table) (key : String) (absent : Nat) : Option Nat :=
  match Entries.get? t key with
  | none => some absent
  | some (.integer (.ofNat n)) => some n
  | some _ => none

def ofTable? (t : Toml.Table) : Option Settings := do
  let absent : Settings := {}
  return {
    pretty := ← boolean? t "pretty" absent.pretty
    indent := ← size? t "indent" absent.indent
    maxDocumentBytes := ← size? t "max_document_bytes" absent.maxDocumentBytes
    maxDepth := ← size? t "max_depth" absent.maxDepth
    lookupConcurrency := ← size? t "lookup_concurrency" absent.lookupConcurrency
    keepEmpty := ← boolean? t "keep_empty" absent.keepEmpty }

def ofText (text : String) : Except LoadFault Settings :=
  match (Toml.read? text).bind ofTable? with
  | some s => .ok s
  | none => .error .invalid

/-- Settings from the content of a file, `none` if the file cannot be read. -/
def ofFile (content : Option String) : Except LoadFault Settings :=
  match content with
  | some text => ofText text
  | none => .error .unreadable

end TaggedMarkup.Settings
