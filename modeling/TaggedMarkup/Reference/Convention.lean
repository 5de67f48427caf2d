import TaggedMarkup.Text.Word
import TaggedMarkup.Value
/-!
# The naming convention of references

A reference is spelt in markup as the point-separated ids of a collection and an entry, and held in
a value as the full address of the entry's id field. `target` leads from the first form to the
second and `recognize?` back.
-/
namespace TaggedMarkup

/-- The address of an entry by its collection and its id in there. -/
structure EntryPath where
  collection : String
  entry : String
  deriving DecidableEq, Inhabited

namespace EntryPath

def display (p : EntryPath) : String := p.collection ++ "." ++ p.entry

/-- By collection, then by entry, each in the order of its code points. -/
def precedes (p q : EntryPath) : Bool :=
  ((compare p.collection q.collection).then (compare p.entry q.entry)).isLE

end EntryPath

/-- Where collections live and how their ids start. -/
structure Convention where
  adapter : String
  collectionType : String
  collectionStem : String
  deriving DecidableEq, Inhabited

namespace Convention

def standard : Convention :=
  ⟨"netsuite", "translationcollection", "custcollectiontranslations"⟩

def admits (c : Convention) (collection : List Char) : Bool :=
  c.collectionStem.toList.isPrefixOf collection

def isWordRun (s : List Char) : Bool := !s.isEmpty && s.all Text.isWord

/-- The entry that a text spells: two runs of word characters around one point, the first of them a
collection id. -/
def parse? (c : Convention) (text : String) : Option EntryPath :=
  match text.toList.splitOn '.' with
  | [collection, entry] =>
    if isWordRun collection && isWordRun entry && c.admits collection then
      some ⟨String.ofList collection, String.ofList entry⟩
    else none
  | _ => none

/-- The artifact that holds the collection. -/
def collectionId (c : Convention) (p : EntryPath) : Path :=
  ⟨[c.adapter, c.collectionType, "instance", p.collection]⟩

/-- The place of the entry's id inside its collection. -/
def entryField (p : EntryPath) : List String := ["strings", "string", p.entry, "scriptid"]

def target (c : Convention) (p : EntryPath) : Path :=
  ⟨(c.collectionId p).segments ++ entryField p⟩

def reference (c : Convention) (p : EntryPath) : Reference := ⟨c.target p⟩

/-- The entry whose target this is. -/
def recognize? (c : Convention) (target : Path) : Option EntryPath :=
  match target.segments with
  | [adapter, collectionType, "instance", collection, "strings", "string", entry, "scriptid"] =>
    if adapter = c.adapter ∧ collectionType = c.collectionType ∧ c.admits collection.toList then
      some ⟨collection, entry⟩
    else none
  | _ => none

/-- The text of a reference in markup; a target outside the convention is written in full. -/
def render (c : Convention) (r : Reference) : String :=
  match c.recognize? r.target with
  | some p => p.display
  | none => r.target.display

theorem recognize?_target {c : Convention} {p : EntryPath} (h : c.admits p.collection.toList = true) :
    c.recognize? (c.target p) = some p := by
  simp [recognize?, target, collectionId, entryField, h]

theorem render_reference {c : Convention} {p : EntryPath}
    (h : c.admits p.collection.toList = true) : c.render (c.reference p) = p.display := by
  simp [render, reference, recognize?_target h]

end Convention

end TaggedMarkup
