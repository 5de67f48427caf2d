import TaggedMarkup.Reference.Resolution
/-!
# Collections of texts

A collection is the artifact that references point into: its entries stand under `strings.string`,
each with its own id. Main statement: every entry of a stored collection resolves.
-/
namespace TaggedMarkup

/-- An entry as its collection holds it. -/
def collectionEntry (entry : String) : Value :=
  .object [("scriptid", .string entry), ("defaulttranslation", .string (entry ++ " text"))]

/-- The entries of a collection by their ids. -/
def collectionEntries (entries : List String) : Entries Value :=
  Entries.ofPairs (entries.map fun entry => (entry, collectionEntry entry))

namespace Convention

/-- A collection of a name at the address where references look for it. -/
def collection (c : Convention) (name : String) (entries : List String) : Artifact :=
  ⟨c.collectionId ⟨name, ""⟩, "translationcollection", .object [
    ("scriptid", .string name),
    ("strings", .object [("string", .object (collectionEntries entries))])]⟩

end Convention

theorem get?_collectionEntries {entries : List String} {entry : String} (h : entry ∈ entries) :
    Entries.get? (collectionEntries entries) entry = some (collectionEntry entry) := by
  simp [collectionEntries, Entries.ofPairs, Entries.get?_extend_map, h]

/-- A reference to an entry of a stored collection resolves. -/
theorem Convention.resolve?_collection (c : Convention) {store : Store} {name entry : String}
    {entries : List String} (h : entry ∈ entries) :
    c.resolve? (store.insert (c.collection name entries)) ⟨name, entry⟩ =
      some (c.reference ⟨name, entry⟩) := by
  simp [resolve?, Store.get?_insert, collection, collectionId, entryField, Value.getPath?,
    Value.step?, Entries.get?, get?_collectionEntries h, collectionEntry]

end TaggedMarkup
