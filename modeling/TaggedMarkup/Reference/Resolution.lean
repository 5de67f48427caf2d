import TaggedMarkup.Reference.Convention
import TaggedMarkup.Store
/-!
# Resolving references against a store

An entry resolves if its collection is in the store and holds the entry's id field. A batch looks
every distinct entry up once and remembers both outcomes.
-/
namespace TaggedMarkup

/-- The reference to an entry, if the store holds it. -/
def Convention.resolve? (c : Convention) (store : Store) (p : EntryPath) : Option Reference :=
  match store.get? (c.collectionId p) with
  | some collection =>
    if (collection.value.getPath? (entryField p)).isSome then some (c.reference p) else none
  | none => none

/-- The outcomes of lookups, one for each entry. -/
structure Resolutions where
  outcomes : List (EntryPath × Option Reference)
  deriving Inhabited

namespace Resolutions

/-- Adds an outcome in place of any for the same entry. -/
def insert (r : Resolutions) (p : EntryPath) (outcome : Option Reference) : Resolutions :=
  ⟨r.outcomes.filter (fun o => o.1 ≠ p) ++ [(p, outcome)]⟩

def ofOutcomes (outcomes : List (EntryPath × Option Reference)) : Resolutions :=
  outcomes.foldl (fun r o => r.insert o.1 o.2) ⟨[]⟩

/-- The reference of an entry that was looked up and found. -/
def get? (r : Resolutions) (p : EntryPath) : Option Reference :=
  (r.outcomes.find? fun o => o.1 = p).bind Prod.snd

/-- The entries that were looked up and not found, in order. -/
def unresolved (r : Resolutions) : List EntryPath :=
  ((r.outcomes.filter fun o => o.2.isNone).map Prod.fst).mergeSort EntryPath.precedes

def size (r : Resolutions) : Nat := r.outcomes.length

end Resolutions

/-- The outcomes for a list of entries, each distinct one looked up once. -/
def Convention.resolveAll (c : Convention) (store : Store) (paths : List EntryPath) : Resolutions :=
  .ofOutcomes (paths.eraseDups.map fun p => (p, c.resolve? store p))

end TaggedMarkup
